import ContractHost.Json.Format
import ContractHost.Json.Writer
import ContractHost.Msgpack.Tree
import ContractHost.Msgpack.Writer
import ContractHost.Table

/-!
Types with a written form. Such a type gives the shape of its documents and goes to documents and
back; reading and writing in either format are then the same for all of them.
-/

namespace ContractHost

/-- A type whose values are written as documents of one shape. -/
class Wire (α : Type) where
  shape : Shape
  toDoc : α → Doc
  ofDoc? : Doc → Option α

namespace Wire

variable {α : Type} [Wire α]

def toMsgpack (a : α) : Bytes := Msgpack.write (toDoc a)

def ofMsgpack? (b : Bytes) : Option α :=
  match Msgpack.Tree.read b with
  | none => none
  | some (t, _) => ((shape α).read Msgpack.format t).bind ofDoc?

def toJson (l : Json.Layout) (a : α) : Bytes := Json.write l (toDoc a)

def ofJson? (text : Bytes) : Option α :=
  match Json.Tree.parse text with
  | none => none
  | some t => ((shape α).read Json.format t).bind ofDoc?

end Wire

instance : Wire Bool where
  shape := .bool
  toDoc := .bool
  ofDoc?
    | .bool b => some b
    | _ => none

instance : Wire UInt32 where
  shape := .nat 4294967295
  toDoc n := .int n.toNat
  ofDoc?
    | .int i => some (UInt32.ofNat i.toNat)
    | _ => none

instance : Wire UInt64 where
  shape := .nat 18446744073709551615
  toDoc n := .int n.toNat
  ofDoc?
    | .int i => some (UInt64.ofNat i.toNat)
    | _ => none

instance : Wire String where
  shape := .text
  toDoc := .text
  ofDoc?
    | .text s => some s
    | _ => none

instance : Wire Bytes where
  shape := .bytes
  toDoc := .bytes
  ofDoc?
    | .bytes b => some b
    | _ => none

/-- A dictionary of texts; of several values under one key the last one counts. -/
instance : Wire (Table String String) where
  shape := .dictionary .text
  toDoc t := .map (t.entries.map fun e => (e.1, .text e.2))
  ofDoc?
    | .map entries => (entries.mapM fun (e : String × Doc) =>
        match e.2 with
        | .text s => some (e.1, s)
        | _ => none).map Table.ofList
    | _ => none

def Wire.optionToDoc {α : Type} [Wire α] : Option α → Doc
  | none => .null
  | some a => toDoc a

def Wire.optionOfDoc? {α : Type} [Wire α] : Doc → Option (Option α)
  | .null => some none
  | d => (ofDoc? d).map some

def Wire.listToDoc {α : Type} [Wire α] (l : List α) : Doc := .list (l.map toDoc)

def Wire.listOfDoc? {α : Type} [Wire α] : Doc → Option (List α)
  | .list items => items.mapM ofDoc?
  | _ => none

instance : Wire TextSet where
  shape := .list .text
  toDoc s := .list (s.keys.map .text)
  ofDoc?
    | .list items => (items.mapM (Wire.ofDoc? (α := String))).map TextSet.ofList
    | _ => none

end ContractHost
