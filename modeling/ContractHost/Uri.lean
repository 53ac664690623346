import ContractHost.Checksum

/-!
Locators of units: `wrap://<authority>/<path>`. A locator that was read from text has an authority
without slashes and a path that is not empty; writing it gives that text back.
-/

namespace ContractHost

structure Uri where
  authority : String
  path : String
  deriving DecidableEq, Repr

namespace Uri

def scheme : String := "wrap://"

/-- The authority of units that are found in the code store by their checksum. -/
def storeAuthority : String := "store"

/-- The authority of units that the host itself provides. -/
def hostAuthority : String := "host"

inductive Error where
  | otherScheme (text : String)
  | noPath (text : String)
  | invalidAuthority (authority : String)
  | emptyPath
  deriving DecidableEq, Repr

def Error.message : Error → String
  | .otherScheme s => "not a wrap:// uri: '" ++ s ++ "'"
  | .noPath s => "uri has no path: '" ++ s ++ "'"
  | .invalidAuthority a => "invalid authority '" ++ a ++ "'"
  | .emptyPath => "empty uri path"

def ofParts (authority path : List Char) : Except Error Uri :=
  if authority = [] ∨ '/' ∈ authority then .error (.invalidAuthority (String.ofList authority))
  else if path = [] then .error .emptyPath
  else .ok ⟨String.ofList authority, String.ofList path⟩

def new (authority path : String) : Except Error Uri := ofParts authority.toList path.toList

def store (c : Checksum) : Uri := ⟨storeAuthority, c.toHex⟩

/-- The locator of a unit of the host; any name is taken. -/
def host (name : String) : Uri := ⟨hostAuthority, name⟩

/-- Reads a locator: after the scheme, the first slash ends the authority. -/
def parse (text : String) : Except Error Uri :=
  match scheme.toList.isPrefixOf? text.toList with
  | none => .error (.otherScheme text)
  | some rest =>
    match rest.dropWhile (· != '/') with
    | [] => .error (.noPath text)
    | _ :: path => ofParts (rest.takeWhile (· != '/')) path

def text (u : Uri) : String := scheme ++ u.authority ++ "/" ++ u.path

instance : ToString Uri := ⟨text⟩

end Uri

end ContractHost
