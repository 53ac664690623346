import ContractHost.Bytes

/-!
Paths: a text that was given, and the names that were put below it. Keeping the two apart, the
place that a path leads to is that of its base, one directory further down for each name.
-/

namespace ContractHost

structure Path where
  /-- The path that was given, in any spelling. -/
  base : String
  /-- Names of directories or files below it. -/
  below : List String
  deriving DecidableEq, Repr

namespace Path

def ofText (s : String) : Path := ⟨s, []⟩

def child (p : Path) (name : String) : Path := ⟨p.base, p.below ++ [name]⟩

/-- Puts a name behind the text of a path, with one slash between them. -/
def join (text name : String) : String :=
  if text.isEmpty then name
  else if text.toList.getLast? = some '/' then text ++ name
  else text ++ "/" ++ name

def text (p : Path) : String := p.below.foldl join p.base

instance : ToString Path := ⟨text⟩

/-- The pieces of a byte string between slashes, the current piece latest byte first. -/
def splitSlashes (piece : Bytes) : Bytes → List Bytes
  | [] => [piece.reverse]
  | b :: rest =>
    if b = 0x2F then piece.reverse :: splitSlashes [] rest else splitSlashes (b :: piece) rest

/-- The names that a path goes through; repeated slashes count as one. -/
def components (p : Path) : List Bytes :=
  (splitSlashes [] (Bytes.ofText p.base)).filter (!·.isEmpty) ++ p.below.map Bytes.ofText

def isAbsolute (p : Path) : Bool := p.base.toList.head? = some '/'

/-- The path ends with a slash, so that only a directory can be meant. -/
def endsInSlash (p : Path) : Bool := p.below.isEmpty && p.base.toList.getLast? = some '/'

end Path

end ContractHost
