import ContractHost.Msgpack.Head
import ContractHost.Wire.Shape

/-!
MessagePack values as trees, and what a tree can be taken for. Whatever stands behind the first
value of a byte string is left alone. Containers may be nested up to a fixed depth.
-/

namespace ContractHost.Msgpack

inductive Tree where
  | nil
  | bool (b : Bool)
  | uint (n : Nat)
  | sint (i : Int)
  | single (bits : UInt32)
  | double (bits : UInt64)
  | str (b : Bytes)
  | bin (b : Bytes)
  | array (items : List Tree)
  | map (entries : List (Tree × Tree))
  | ext (tag : UInt8) (data : Bytes)

/-- Reads `n` items, put behind those already read, the latest first. -/
def readMany {α : Type} (read : Bytes → Option (α × Bytes)) :
    Nat → List α → Bytes → Option (List α × Bytes)
  | 0, found, b => some (found.reverse, b)
  | n + 1, found, b =>
    match read b with
    | none => none
    | some (x, b) => readMany read n (x :: found) b

def readEntry (read : Bytes → Option (Tree × Bytes)) (b : Bytes) : Option ((Tree × Tree) × Bytes) :=
  match read b with
  | none => none
  | some (k, b) =>
    match read b with
    | none => none
    | some (v, b) => some ((k, v), b)

def readExt (n : Nat) : Bytes → Option (Tree × Bytes)
  | [] => none
  | tag :: b => (Bytes.split? n b).map fun (data, r) => (.ext tag data, r)

/-- Reads a value in which containers are nested at most `depth` deep. -/
def readTree (depth : Nat) (b : Bytes) : Option (Tree × Bytes) :=
  match readHead b with
  | none => none
  | some (head, b) =>
    match head with
    | .nil => some (.nil, b)
    | .bool v => some (.bool v, b)
    | .uint n => some (.uint n, b)
    | .sint i => some (.sint i, b)
    | .single w => some (.single w, b)
    | .double w => some (.double w, b)
    | .str n => (Bytes.split? n b).map fun (s, r) => (.str s, r)
    | .bin n => (Bytes.split? n b).map fun (s, r) => (.bin s, r)
    | .array n =>
      match depth with
      | 0 => none
      | d + 1 => (readMany (readTree d) n [] b).map fun (items, r) => (.array items, r)
    | .map n =>
      match depth with
      | 0 => none
      | d + 1 => (readMany (readEntry (readTree d)) n [] b).map fun (es, r) => (.map es, r)
    -- An extension holds a tag and data, so it counts as a container.
    | .ext n =>
      match depth with
      | 0 => none
      | _ + 1 => readExt n b
termination_by structural depth

def maxDepth : Nat := 1023

def Tree.read (b : Bytes) : Option (Tree × Bytes) := readTree maxDepth b

namespace Tree

def nat? : Tree → Option Nat
  | .uint n => some n
  | .sint i => if 0 ≤ i then some i.toNat else none
  | _ => none

def text? : Tree → Option String
  | .str b => Bytes.text? b
  | .bin b => Bytes.text? b
  | _ => none

def byte? (t : Tree) : Option UInt8 :=
  match t.nat? with
  | none => none
  | some n => if n < 256 then some (UInt8.ofNat n) else none

def bytes? : Tree → Option Bytes
  | .bin b => some b
  | .str b => some b
  | .array items => items.mapM byte?
  | _ => none

/-- The items of a sequence. A byte string is a sequence of numbers. -/
def items? : Tree → Option (List Tree)
  | .array items => some items
  | .bin b => some (b.map fun x => .uint x.toNat)
  | _ => none

/-- The place of the field that a key of a record stands for. A key is the name of the field or its
place; a key that stands for none gives `some none`, and one that cannot be a key gives `none`. -/
def fieldKey? (names : List String) : Tree → Option (Option Nat)
  | .str b => some (names.findIdx? fun s => Bytes.ofText s = b)
  | .bin b => some (names.findIdx? fun s => Bytes.ofText s = b)
  | .uint n => some (if n < names.length then some n else none)
  | _ => none

/-- The value of an entry of a record with the place of its field, if it belongs to one. -/
def fieldPair? (names : List String) (e : Tree × Tree) : Option (Option (Nat × Tree)) :=
  match fieldKey? names e.1 with
  | none => none
  | some none => some none
  | some (some i) => some (some (i, e.2))

/-- The values of a record, each with the place of its field. Values in order must not be more than
the fields; a byte string gives as many as there are fields. -/
def fields? (names : List String) : Tree → Option (List (Nat × Tree))
  | .map entries => (entries.mapM (fieldPair? names)).map (List.filterMap id)
  | .array items => if items.length ≤ names.length then some (numbered items) else none
  | .bin b => some (numbered ((b.take names.length).map fun x => .uint x.toNat))
  | _ => none

def entries? : Tree → Option (List (String × Tree))
  | .map entries => entries.mapM fun (e : Tree × Tree) => e.1.text?.map (·, e.2)
  | _ => none

end Tree

def format : Format Tree where
  isNull
    | .nil => true
    | _ => false
  bool?
    | .bool b => some b
    | _ => none
  nat? := Tree.nat?
  text? := Tree.text?
  bytes? := Tree.bytes?
  items? := Tree.items?
  entries? := Tree.entries?
  fields? := Tree.fields?

end ContractHost.Msgpack
