import ContractHost.Files.FileSystem
import ContractHost.Table

/-!
A file system as a value: every file and directory under the place it stands at, and the working
directory. A place is the list of the names that lead to it from the root; the root itself is
always a directory.
-/

namespace ContractHost

inductive Node where
  | file (contents : Bytes)
  | dir
  deriving DecidableEq

/-- A place: the names that lead to it from the root. -/
abbrev Place := List Bytes

structure Disk where
  nodes : Table Place Node
  /-- Where paths that are not absolute start. -/
  cwd : Place

namespace Disk

/-- An empty disk whose working directory, one level below the root, has the given name. -/
def blank (cwd : Bytes) : Disk := ⟨(∅ : Table Place Node).insert [cwd] .dir, [cwd]⟩

def node? (d : Disk) : Place → Option Node
  | [] => some .dir
  | p => d.nodes.get? p

def put (d : Disk) (p : Place) (n : Node) : Disk := { d with nodes := d.nodes.insert p n }

def maxName : Nat := 255

def maxPath : Nat := 4095

/-- The place that a name leads to from a directory. -/
def enter (here : Place) (name : Bytes) : Place :=
  if name = [0x2E] then here
  else if name = [0x2E, 0x2E] then here.dropLast
  else here ++ [name]

/-- Follows names from a directory: the place they lead to and what stands there, perhaps nothing.
All but the last name have to lead to directories. -/
def walk (d : Disk) (here : Place) : List Bytes → Except OsError (Place × Option Node)
  | [] => .ok (here, some .dir)
  | name :: rest =>
    if maxName < name.length then .error .nameTooLong
    else
      let next := enter here name
      match d.node? next with
      | some .dir => d.walk next rest
      | some (.file b) => if rest.isEmpty then .ok (next, some (.file b)) else .error .notDirectory
      | none => if rest.isEmpty then .ok (next, none) else .error .notFound

def reach (d : Disk) (here : Place) (names : List Bytes) : Except OsError Place :=
  match d.walk here names with
  | .error e => .error e
  | .ok (_, none) => .error .notFound
  | .ok (_, some (.file _)) => .error .notDirectory
  | .ok (place, some .dir) => .ok place

/-- Where a path starts. The empty path leads nowhere. -/
def origin (d : Disk) (p : Path) : Except OsError Place :=
  if p.text.isEmpty then .error .notFound
  else if maxPath < (Bytes.ofText p.text).length then .error .nameTooLong
  else .ok (if p.isAbsolute then [] else d.cwd)

def locate (d : Disk) (p : Path) : Except OsError (Place × Option Node) :=
  match d.origin p with
  | .error e => .error e
  | .ok here => d.walk here p.components

def find (d : Disk) (p : Path) : Except OsError (Place × Node) :=
  match d.locate p with
  | .error e => .error e
  | .ok (_, none) => .error .notFound
  | .ok (place, some .dir) => .ok (place, .dir)
  | .ok (place, some (.file b)) =>
    if p.endsInSlash then .error .notDirectory else .ok (place, .file b)

def read (d : Disk) (p : Path) : Except OsError Bytes :=
  match d.find p with
  | .error e => .error e
  | .ok (_, .dir) => .error .isDirectory
  | .ok (_, .file b) => .ok b

/-- Where a file can be written. A path that ends in a slash names a directory, whatever stands
there, so its last name is not even looked at. -/
def target (d : Disk) (p : Path) : Except OsError Place :=
  match d.origin p with
  | .error e => .error e
  | .ok here =>
    if p.endsInSlash then
      match d.reach here p.components.dropLast with
      | .error e => .error e
      | .ok _ => .error .isDirectory
    else
      match d.walk here p.components with
      | .error e => .error e
      | .ok (_, some .dir) => .error .isDirectory
      | .ok (place, _) => .ok place

def write (d : Disk) (p : Path) (b : Bytes) : Except OsError Unit × Disk :=
  match d.target p with
  | .error e => (.error e, d)
  | .ok place => (.ok (), d.put place (.file b))

/-- Makes the directories that names lead through, from a directory on; `made` says whether one was
made before. What was made stays when a later name fails.

A file in the way is met in one of two ways. The whole path is tried first, and as long as nothing
is missing before the file, that attempt fails since the file is no directory. If something was
missing, directories are made one by one, and making one in the place of the file fails since the
file exists. -/
def makeDirs (d : Disk) (made : Bool) (here : Place) : List Bytes → Except OsError Unit × Disk
  | [] => (.ok (), d)
  | name :: rest =>
    if maxName < name.length then (.error .nameTooLong, d)
    else
      let next := enter here name
      match d.node? next with
      -- What exists is passed through, also where the name only points back.
      | some .dir => d.makeDirs made next rest
      | some (.file _) =>
        (.error (if made || rest.isEmpty then .alreadyExists else .notDirectory), d)
      | none => (d.put next .dir).makeDirs true next rest

def createDirs (d : Disk) (p : Path) : Except OsError Unit × Disk :=
  if p.text.isEmpty then (.ok (), d)
  else
    match d.origin p with
    | .error e => (.error e, d)
    | .ok here => d.makeDirs false here p.components

def names (d : Disk) (place : Place) : List Bytes :=
  d.nodes.keys.filterMap fun k =>
    match k.getLast? with
    | some name => if k.dropLast = place then some name else none
    | none => none

def list (d : Disk) (p : Path) : Except OsError (List Bytes) :=
  match d.find p with
  | .error e => .error e
  | .ok (_, .file _) => .error .notDirectory
  | .ok (place, .dir) => .ok (d.names place)

def isFile (d : Disk) (p : Path) : Bool :=
  match d.find p with
  | .ok (_, .file _) => true
  | _ => false

/-- Takes away what stands at a place and everything below it. -/
def remove (d : Disk) (place : Place) : Disk :=
  { d with nodes := (d.nodes.keys.filter place.isPrefixOf).foldl Table.erase d.nodes }

instance : FileSystem (StateM Disk) where
  read p d := (d.read p, d)
  write p b d := d.write p b
  createDirs p d := d.createDirs p
  list p d := (d.list p, d)
  isFile p d := (d.isFile p, d)

end Disk

end ContractHost
