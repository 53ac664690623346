import ContractHost.Json.Tree
import ContractHost.Wire.Shape

/-!
What a JSON value can be taken for when a record is read: a byte string may be written as a string
or as an array of numbers, keys are texts, and what belongs to no field only has to be well-formed.
-/

namespace ContractHost.Json

namespace Tree

def nat? : Tree → Option Nat
  | .number n =>
    match n.value? with
    | some (.int i) => if 0 ≤ i then some i.toNat else none
    | _ => none
  | _ => none

def text? : Tree → Option String
  | .string raw => stringText? raw
  | _ => none

def byte? (t : Tree) : Option UInt8 :=
  match t.nat? with
  | none => none
  | some n => if n < 256 then some (UInt8.ofNat n) else none

def bytes? : Tree → Option Bytes
  | .string raw => stringBytes? raw
  | .array items => items.mapM byte?
  | _ => none

/-- The value of a member of a record with the place of its field, if it belongs to one. -/
def fieldMember? (names : List String) (e : Bytes × Tree) : Option (Option (Nat × Tree)) :=
  match stringText? e.1 with
  | none => none
  | some key =>
    match names.findIdx? (· = key) with
    | some i => some (some (i, e.2))
    | none => if e.2.isSkippable then some none else none

/-- The values of a record, each with the place of its field. Values in order must not be more than
the fields. -/
def fields? (names : List String) : Tree → Option (List (Nat × Tree))
  | .object members => (members.mapM (fieldMember? names)).map (List.filterMap id)
  | .array items => if items.length ≤ names.length then some (numbered items) else none
  | _ => none

def entries? : Tree → Option (List (String × Tree))
  | .object members =>
    members.mapM fun (e : Bytes × Tree) => (stringText? e.1).map (·, e.2)
  | _ => none

end Tree

def format : Format Tree where
  isNull
    | .null => true
    | _ => false
  bool?
    | .bool b => some b
    | _ => none
  nat? := Tree.nat?
  text? := Tree.text?
  bytes? := Tree.bytes?
  items?
    | .array items => some items
    | _ => none
  entries? := Tree.entries?
  fields? := Tree.fields?

end ContractHost.Json
