import ContractHost.Wire.Doc

/-!
Shapes of documents, and the reading of a document of a known shape.

A shape says what is expected; a `Format` says what a value that was found in some format can be
taken for. Reading goes by recursion on the shape, so what a format allows is said once, and what a
record consists of is said once. A record may name its fields or give them in order; a field that
is not given has its default, if there is one, and a field that is given twice is an error.
-/

namespace ContractHost

mutual

inductive Shape where
  | bool
  /-- A number from zero up to a bound. -/
  | nat (bound : Nat)
  | text
  | bytes
  /-- A value that may be null. -/
  | option (s : Shape)
  | list (s : Shape)
  /-- Values under keys that are texts. -/
  | dictionary (s : Shape)
  | record (fields : Fields)

/-- The fields of a record: each has a name, a shape and perhaps a default. -/
inductive Fields where
  | nil
  | cons (name : String) (shape : Shape) (default : Option Doc) (rest : Fields)

end

def Fields.names : Fields → List String
  | .nil => []
  | .cons name _ _ rest => name :: rest.names

/-- What a value of type `T`, found in some format, can be taken for. -/
structure Format (T : Type) where
  isNull : T → Bool
  bool? : T → Option Bool
  /-- An integer that is not negative. -/
  nat? : T → Option Nat
  text? : T → Option String
  bytes? : T → Option Bytes
  items? : T → Option (List T)
  entries? : T → Option (List (String × T))
  /-- The values of a record with the given field names, each with the place of its field; what
  belongs to no field is left out. -/
  fields? : List String → T → Option (List (Nat × T))

def numbered {T : Type} (items : List T) : List (Nat × T) :=
  items.zipIdx.map fun (t, i) => (i, t)

mutual

def Shape.read {T : Type} (F : Format T) : Shape → T → Option Doc
  | .bool, t => (F.bool? t).map .bool
  | .nat bound, t =>
    match F.nat? t with
    | none => none
    | some n => if n ≤ bound then some (.int n) else none
  | .text, t => (F.text? t).map .text
  | .bytes, t => (F.bytes? t).map .bytes
  | .option s, t => if F.isNull t then some .null else s.read F t
  | .list s, t =>
    match F.items? t with
    | none => none
    | some items => (items.mapM (s.read F)).map .list
  | .dictionary s, t =>
    match F.entries? t with
    | none => none
    | some entries => (entries.mapM fun (e : String × T) => (s.read F e.2).map (e.1, ·)).map .map
  | .record fields, t =>
    match F.fields? fields.names t with
    | none => none
    | some found =>
      if (found.map Prod.fst).Nodup then (fields.read F found 0).map .map else none

/-- The fields of a record, from the place `i` on, out of the values that were found. -/
def Fields.read {T : Type} (F : Format T) (found : List (Nat × T)) (i : Nat) :
    Fields → Option (List (String × Doc))
  | .nil => some []
  | .cons name shape default rest =>
    let value :=
      match found.lookup i with
      | some t => shape.read F t
      | none => default
    match value, rest.read F found (i + 1) with
    | some d, some ds => some ((name, d) :: ds)
    | _, _ => none

end

end ContractHost
