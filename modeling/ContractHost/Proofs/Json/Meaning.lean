import ContractHost.Proofs.Json.Number
import ContractHost.Proofs.Json.Spelling
import ContractHost.Proofs.Wire.Value

/-!
What a JSON text says: a value, in which the order of members, the way in which
strings and numbers are spelled, and members that are overwritten no longer show.

Not every text of the grammar says something. The contents of its strings have to
be texts, its numbers must not be too great, and its arrays and objects must not be
nested too deep.
-/

namespace ContractHost.Json

mutual

/-- A tree says a value, if arrays and objects are nested at most so deep. -/
inductive Tree.Means : Nat → Tree → Value → Prop
  | null {depth : Nat} : Tree.Means depth .null .null
  | bool {depth : Nat} (b : Bool) : Tree.Means depth (.bool b) (.bool b)
  | int {depth : Nat} {n : Numeral} {i : Int} (whole : n.IsInteger i) :
    Tree.Means depth (.number n) (.int i)
  | double {depth : Nat} {n : Numeral} {bits : UInt64} (other : ∀ i, ¬ n.IsInteger i)
    (nearest : n.doubleBits? = some bits) : Tree.Means depth (.number n) (.double bits)
  | text {depth : Nat} {raw : Bytes} {s : String}
    (spelled : Bytes.InTurn CharSpelled s.toList raw) : Tree.Means depth (.string raw) (.text s)
  | list {depth : Nat} {items : List Tree} {values : List Value}
    (each : ItemsMean depth items values) : Tree.Means (depth + 1) (.array items) (.list values)
  | map {depth : Nat} {members : List (Bytes × Tree)} {named : List (String × Value)}
    (each : MembersMean depth members named) :
    Tree.Means (depth + 1) (.object members) (.ofMembers named)

inductive ItemsMean : Nat → List Tree → List Value → Prop
  | nil {depth : Nat} : ItemsMean depth [] []
  | cons {depth : Nat} {t : Tree} {v : Value} {items : List Tree} {values : List Value}
    (first : Tree.Means depth t v) (others : ItemsMean depth items values) :
    ItemsMean depth (t :: items) (v :: values)

inductive MembersMean : Nat → List (Bytes × Tree) → List (String × Value) → Prop
  | nil {depth : Nat} : MembersMean depth [] []
  | cons {depth : Nat} {key : Bytes} {name : String} {t : Tree} {v : Value}
    {members : List (Bytes × Tree)} {named : List (String × Value)}
    (spelled : Bytes.InTurn CharSpelled name.toList key) (first : Tree.Means depth t v)
    (others : MembersMean depth members named) :
    MembersMean depth ((key, t) :: members) ((name, v) :: named)

end

end ContractHost.Json
