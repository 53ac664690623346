import ContractHost.CodeStore.Error
import ContractHost.CodeStore.Manifest
import ContractHost.Files.FileSystem

/-!
The store of contract code. Every code has a directory of its own, named by its checksum, with the
code and its manifest in it:

    <data directory>/wasm/<checksum>/wrap.wasm
    <data directory>/wasm/<checksum>/wrap.info

Storing a code again writes the same files again. A manifest that is missing, that cannot be read
as one, or that is not that of its code counts as none, and the code itself is inspected instead.
-/

namespace ContractHost

structure CodeStore where
  root : Path
  deriving DecidableEq

namespace CodeStore

def codeDir (s : CodeStore) (c : Checksum) : Path := s.root.child c.toHex

def codePath (s : CodeStore) (c : Checksum) : Path := (s.codeDir c).child "wrap.wasm"

def manifestPath (s : CodeStore) (c : Checksum) : Path := (s.codeDir c).child "wrap.info"

def within (dataDir : String) : CodeStore := ⟨(Path.ofText dataDir).child "wasm"⟩

variable {m : Type → Type} [Monad m] [FileSystem m]

/-- Opens the store in a data directory and makes its directory if need be. -/
def openIn (dataDir : String) : m (Except StoreError CodeStore) := do
  let s := within dataDir
  match ← FileSystem.createDirs s.root with
  | .error e => return .error (.storage ("create " ++ s.root.text) e)
  | .ok () => return .ok s

def create (s : CodeStore) (code : Bytes) : m (Except StoreError Checksum) := do
  if code.isEmpty then
    return .error (.invalidInput "bytecode must not be empty")
  let c := Checksum.of code
  -- The code goes first: a code without a manifest can still be inspected.
  match ← FileSystem.createDirs (s.codeDir c) with
  | .error e => return .error (.storage ("create " ++ (s.codeDir c).text) e)
  | .ok () =>
  match ← FileSystem.write (s.codePath c) code with
  | .error e => return .error (.storage ("write " ++ (s.codePath c).text) e)
  | .ok () =>
  match ← FileSystem.write (s.manifestPath c) (Wire.toJson .pretty (Manifest.of code)) with
  | .error e => return .error (.storage ("write " ++ (s.manifestPath c).text) e)
  | .ok () => return .ok c

def getCode (s : CodeStore) (c : Checksum) : m (Except StoreError Bytes) := do
  match ← FileSystem.read (s.codePath c) with
  | .ok b => return .ok b
  | .error e =>
    return .error (if e.isNotFound then .notFound c else .storage ("read " ++ (s.codePath c).text) e)

/-- The manifest that a file holds, if it is that of the given code. -/
def usableManifest? (c : Checksum) (contents : Bytes) : Option Manifest :=
  match Wire.ofJson? (α := Manifest) contents with
  | none => none
  | some f => if f.version = Manifest.currentVersion ∧ f.checksum = c then some f else none

def manifest (s : CodeStore) (c : Checksum) : m (Except StoreError (Option Manifest)) := do
  match ← FileSystem.read (s.manifestPath c) with
  | .ok contents => return .ok (usableManifest? c contents)
  | .error e =>
    return if e.isNotFound then .ok none
      else .error (.storage ("read " ++ (s.manifestPath c).text) e)

def contains (s : CodeStore) (c : Checksum) : m Bool := FileSystem.isFile (s.codePath c)

/-- The capability report of a code: the one in the manifest, or else what the code itself says. -/
def analyzeCode (s : CodeStore) (c : Checksum) : m (Except StoreError CapabilityReport) := do
  if ← s.contains c then
    match ← s.manifest c with
    | .error e => return .error e
    | .ok (some f) => return .ok f.report
    | .ok none =>
      match ← s.getCode c with
      | .error e => return .error e
      | .ok code => return .ok (CapabilityReport.inspect code)
  else return .error (.notFound c)

/-- The checksum that the name of a directory spells. -/
def checksumOfName? (name : Bytes) : Option Checksum :=
  match Bytes.text? name with
  | none => none
  | some s => (Checksum.parse s).toOption

/-- The checksums of all stored codes, in ascending order. -/
def list (s : CodeStore) : m (Except StoreError (List Checksum)) := do
  match ← FileSystem.list s.root with
  | .error e => return .error (.storage ("list " ++ s.root.text) e)
  | .ok names =>
    let found ← (names.filterMap checksumOfName?).filterM s.contains
    return .ok (Checksum.sort found)

end CodeStore

end ContractHost
