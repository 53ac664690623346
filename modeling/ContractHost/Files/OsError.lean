/-!
Failures of the operating system: a number and the text that goes with it.
-/

namespace ContractHost

structure OsError where
  code : Nat
  text : String
  deriving DecidableEq, Repr

namespace OsError

def notFound : OsError := ⟨2, "No such file or directory"⟩

def permissionDenied : OsError := ⟨13, "Permission denied"⟩

def alreadyExists : OsError := ⟨17, "File exists"⟩

def notDirectory : OsError := ⟨20, "Not a directory"⟩

def isDirectory : OsError := ⟨21, "Is a directory"⟩

def nameTooLong : OsError := ⟨36, "File name too long"⟩

def isNotFound (e : OsError) : Bool := e.code == 2

def message (e : OsError) : String := e.text ++ " (os error " ++ toString e.code ++ ")"

end OsError

end ContractHost
