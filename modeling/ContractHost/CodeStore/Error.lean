import ContractHost.Checksum
import ContractHost.Files.OsError

/-!
Failures of the code store.
-/

namespace ContractHost

inductive StoreError where
  | invalidInput (reason : String)
  /-- The operating system failed; `action` says what was being done to which file. -/
  | storage (action : String) (cause : OsError)
  | notFound (checksum : Checksum)
  | manifest (reason : String)
  deriving DecidableEq

namespace StoreError

def message : StoreError → String
  | .invalidInput reason => "invalid input: " ++ reason
  | .storage action cause => "storage: " ++ action ++ ": " ++ cause.message
  | .notFound c => "code not found: " ++ c.toHex
  | .manifest reason => "manifest: " ++ reason

def ofChecksum (e : Checksum.Error) : StoreError := .invalidInput e.message

end StoreError

end ContractHost
