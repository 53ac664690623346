import ContractHost.Files.OsError
import ContractHost.Files.Path

/-!
What the host needs of a file system. Everything that works with files is written against this
interface, so that it runs on the files of the machine and on a `Disk` alike.
-/

namespace ContractHost

class FileSystem (m : Type → Type) where
  /-- The contents of a file. -/
  read : Path → m (Except OsError Bytes)
  /-- Writes a file anew. -/
  write : Path → Bytes → m (Except OsError Unit)
  /-- Makes a directory and all directories on the way to it, as far as they do not exist. -/
  createDirs : Path → m (Except OsError Unit)
  /-- The names in a directory. -/
  list : Path → m (Except OsError (List Bytes))
  /-- Whether there is a file. -/
  isFile : Path → m Bool

end ContractHost
