import ContractHost.Proofs.Json.CodePoint
import ContractHost.Proofs.Table
import ContractHost.Proofs.Wire.Shape

/-!
What documents say, whatever the order in which they name things.

A document with named values is a list of entries, and two lists can say the same. A `Value` has no
such order: what it has under a name is a function of the name. A document in which names ascend
everywhere is the only such document that says what it says (`Doc.eq_of_value_eq`), so it is a
canonical form of its value.
-/

namespace ContractHost

/-- A value without a format, and without an order of the names in it. -/
inductive Value where
  | null
  | bool (b : Bool)
  /-- An integer of 64 bits, with or without sign. -/
  | int (i : Int)
  /-- A double, given by its bits. -/
  | double (bits : UInt64)
  | text (s : String)
  | bytes (b : Bytes)
  | list (items : List Value)
  /-- What stands under each name. -/
  | map (named : String → Option Value)

/-- Named values; of several values under one name the last one counts. -/
def Value.ofMembers (members : List (String × Value)) : Value := .map (Entries.last? · members)

namespace Doc

mutual

def value : Doc → Value
  | .null => .null
  | .bool b => .bool b
  | .int i => .int i
  | .double bits => .double bits
  | .text s => .text s
  | .bytes b => .bytes b
  | .list items => .list (itemValues items)
  | .map entries => .ofMembers (entryValues entries)

def itemValues : List Doc → List Value
  | [] => []
  | d :: rest => d.value :: itemValues rest

def entryValues : List (String × Doc) → List (String × Value)
  | [] => []
  | (k, d) :: rest => (k, d.value) :: entryValues rest

end

theorem entryValues_eq_map (entries : List (String × Doc)) :
    entryValues entries = entries.map fun e => (e.1, e.2.value) := by
  induction entries with
  | nil => rfl
  | cons e rest ih => rw [entryValues, ih, List.map_cons]

theorem value_ofList (entries : List (String × Doc)) :
    value (.map (Table.ofList entries).entries) = .ofMembers (entryValues entries) := by
  refine congrArg Value.map (funext fun k => ?_)
  calc Entries.last? k (entryValues (Table.ofList entries).entries)
      = (Entries.last? k (Table.ofList entries).entries).map value := by
        rw [entryValues_eq_map, Entries.last?_map]
    _ = (Entries.last? k entries).map value := by
        rw [Entries.last?_eq_find? (Table.ofList entries).ascending, ← Table.get?_ofList,
          Table.get?]
    _ = Entries.last? k (entryValues entries) := by
        rw [entryValues_eq_map, Entries.last?_map]

/-- If the document has named values, their names ascend in the order of their bytes. -/
def OrderedHere : Doc → Prop
  | .map entries => entries.Pairwise fun a b => Bytes.ofText a.1 < Bytes.ofText b.1
  | _ => True

def Ordered (d : Doc) : Prop := ∀ e ∈ d.parts, e.OrderedHere

theorem ascending_iff {α : Type} {l : List (String × α)} :
    Ascending l ↔ l.Pairwise fun a b => Bytes.ofText a.1 < Bytes.ofText b.1 := by
  have names (a b : String) : compare a b = .lt ↔ Bytes.ofText a < Bytes.ofText b := by
    rw [Json.ofText_lt_ofText_iff]
    exact compareOfLessAndEq_eq_lt
  simp only [Ascending, names]

theorem ascending_entryValues {entries : List (String × Doc)} (ascending : Ascending entries) :
    Ascending (entryValues entries) := by
  rw [entryValues_eq_map]
  exact List.pairwise_map.2 ascending

theorem entryValues_eq {l m : List (String × Doc)} (first : Ascending l) (second : Ascending m)
    (same : value (.map l) = value (.map m)) : entryValues l = entryValues m := by
  have named : (Entries.last? · (entryValues l)) = (Entries.last? · (entryValues m)) :=
    Value.map.inj same
  refine Entries.ext_find? (ascending_entryValues first) (ascending_entryValues second) fun k => ?_
  rw [← Entries.last?_eq_find? (ascending_entryValues first),
    ← Entries.last?_eq_find? (ascending_entryValues second)]
  exact congrFun named k

mutual

/-- A document in which the names ascend is the only one that says what it says. -/
theorem eq_of_value_eq : ∀ {d e : Doc}, d.Ordered → e.Ordered → d.value = e.value → d = e
  | .null, .null, _, _, _ => rfl
  | .bool _, .bool _, _, _, same => congrArg bool (Value.bool.inj same)
  | .int _, .int _, _, _, same => congrArg int (Value.int.inj same)
  | .double _, .double _, _, _, same => congrArg double (Value.double.inj same)
  | .text _, .text _, _, _, same => congrArg text (Value.text.inj same)
  | .bytes _, .bytes _, _, _, same => congrArg bytes (Value.bytes.inj same)
  | .list items, .list others, ordered, ordered', same =>
    congrArg list (eq_of_itemValues_eq (List.forall_mem_cons.1 ordered).2
      (List.forall_mem_cons.1 ordered').2 (Value.list.inj same))
  | .map entries, .map others, ordered, ordered', same => by
    obtain ⟨here, within⟩ := List.forall_mem_cons.1 ordered
    obtain ⟨here', within'⟩ := List.forall_mem_cons.1 ordered'
    have values := entryValues_eq (ascending_iff.2 here) (ascending_iff.2 here') same
    rw [eq_of_entryValues_eq within within' values]

theorem eq_of_itemValues_eq : ∀ {items others : List Doc}, (∀ e ∈ itemsParts items, e.OrderedHere) →
    (∀ e ∈ itemsParts others, e.OrderedHere) → itemValues items = itemValues others →
      items = others
  | [], [], _, _, _ => rfl
  | d :: items, e :: others, ordered, ordered', same => by
    obtain ⟨here, rest⟩ := List.forall_mem_append.1 ordered
    obtain ⟨here', rest'⟩ := List.forall_mem_append.1 ordered'
    obtain ⟨first, more⟩ := List.cons.inj same
    rw [eq_of_value_eq here here' first, eq_of_itemValues_eq rest rest' more]

theorem eq_of_entryValues_eq : ∀ {entries others : List (String × Doc)},
    (∀ e ∈ entriesParts entries, e.OrderedHere) → (∀ e ∈ entriesParts others, e.OrderedHere) →
      entryValues entries = entryValues others → entries = others
  | [], [], _, _, _ => rfl
  | (k, d) :: entries, (j, e) :: others, ordered, ordered', same => by
    obtain ⟨here, rest⟩ := List.forall_mem_append.1 ordered
    obtain ⟨here', rest'⟩ := List.forall_mem_append.1 ordered'
    obtain ⟨first, more⟩ := List.cons.inj same
    obtain ⟨rfl, value⟩ := Prod.mk.inj first
    rw [eq_of_value_eq here here' value, eq_of_entryValues_eq rest rest' more]

end

end Doc

end ContractHost
