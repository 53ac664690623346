/-!
Finite maps kept in ascending order of their keys.

A table is a list of entries together with the proof that its keys ascend strictly, so two tables
with the same look-ups are the same table (`Table.ext_get?`), and the order in which a table is
walked is the order of its keys. Every change goes through one operation, `put`, which stores a
value under a key or, given none, takes the key out; `get?_put_self` and `get?_put_of_ne` say what
it does to the look-ups.
-/

set_option linter.unusedSectionVars false

namespace ContractHost

def Ascending {κ α : Type} [Ord κ] (l : List (κ × α)) : Prop :=
  l.Pairwise fun a b => compare a.1 b.1 = .lt

namespace Entries

variable {κ α : Type} [Ord κ]

def find? (k : κ) : List (κ × α) → Option α
  | [] => none
  | (j, v) :: rest => match compare k j with
    | .eq => some v
    | _ => find? k rest

/-- The entry that a value makes, and none for a value that is absent. -/
def entry (k : κ) : Option α → List (κ × α)
  | some v => [(k, v)]
  | none => []

/-- Stores a value under a key, or takes the key out. -/
def put (k : κ) (v : Option α) : List (κ × α) → List (κ × α)
  | [] => entry k v
  | (j, w) :: rest => match compare k j with
    | .lt => entry k v ++ (j, w) :: rest
    | .eq => entry k v ++ rest
    | .gt => (j, w) :: put k v rest

theorem mem_entry {k : κ} {v : Option α} {e : κ × α} (h : e ∈ entry k v) : e.1 = k := by
  cases v with
  | none => simp [entry] at h
  | some w => simp only [entry, List.mem_singleton] at h; rw [h]

theorem mem_put {k : κ} {v : Option α} {l : List (κ × α)} {e : κ × α} (h : e ∈ put k v l) :
    e.1 = k ∨ e ∈ l := by
  induction l with
  | nil => exact Or.inl (mem_entry h)
  | cons head rest ih =>
    unfold put at h
    split at h
    · rcases List.mem_append.1 h with h | h
      · exact Or.inl (mem_entry h)
      · exact Or.inr h
    · rcases List.mem_append.1 h with h | h
      · exact Or.inl (mem_entry h)
      · exact Or.inr (List.mem_cons_of_mem _ h)
    · rcases List.mem_cons.1 h with h | h
      · exact Or.inr (h ▸ List.mem_cons_self)
      · exact (ih h).imp id (List.mem_cons_of_mem _)

variable [Std.TransOrd κ] [Std.LawfulEqOrd κ]

theorem ascending_put (k : κ) (v : Option α) {l : List (κ × α)} (h : Ascending l) :
    Ascending (put k v l) := by
  induction l with
  | nil => cases v <;> simp [put, entry, Ascending]
  | cons head rest ih =>
    obtain ⟨j, w⟩ := head
    obtain ⟨above, tail⟩ := List.pairwise_cons.1 h
    unfold put
    split
    · next lt =>
      cases v with
      | none => exact h
      | some u =>
        refine List.pairwise_cons.2 ⟨fun e he => ?_, h⟩
        rcases List.mem_cons.1 he with rfl | he
        · exact lt
        · exact Std.TransCmp.lt_trans lt (above e he)
    · next eq =>
      obtain rfl : k = j := Std.LawfulEqOrd.eq_of_compare eq
      cases v with
      | none => exact tail
      | some u => exact List.pairwise_cons.2 ⟨above, tail⟩
    · next gt =>
      refine List.pairwise_cons.2 ⟨fun e he => ?_, ih tail⟩
      rcases mem_put he with rfl | he
      · exact Std.OrientedCmp.lt_of_gt gt
      · exact above e he

theorem find?_eq_none {k : κ} {l : List (κ × α)} (h : ∀ e ∈ l, e.1 ≠ k) : find? k l = none := by
  induction l with
  | nil => rfl
  | cons head rest ih =>
    unfold find?
    split
    · next eq =>
      exact absurd (Std.LawfulEqOrd.eq_of_compare eq).symm (h _ List.mem_cons_self)
    · exact ih fun e he => h e (List.mem_cons_of_mem _ he)

theorem find?_cons_self (k : κ) (v : α) (l : List (κ × α)) : find? k ((k, v) :: l) = some v := by
  simp [find?, Std.ReflCmp.compare_self]

theorem find?_cons_of_ne {k j : κ} (v : α) (l : List (κ × α)) (h : k ≠ j) :
    find? k ((j, v) :: l) = find? k l := by
  rw [find?]
  split
  · next eq => exact absurd (Std.LawfulEqOrd.eq_of_compare eq) h
  · rfl

theorem mem_of_find? {k : κ} {v : α} {l : List (κ × α)} (h : find? k l = some v) : (k, v) ∈ l := by
  induction l with
  | nil => simp [find?] at h
  | cons head rest ih =>
    obtain ⟨j, w⟩ := head
    unfold find? at h
    split at h
    · next eq =>
      cases h
      rw [Std.LawfulEqOrd.eq_of_compare eq]
      exact List.mem_cons_self
    · exact List.mem_cons_of_mem _ (ih h)

theorem find?_isSome_of_mem {e : κ × α} {l : List (κ × α)} (h : e ∈ l) :
    (find? e.1 l).isSome = true := by
  induction l with
  | nil => cases h
  | cons head rest ih =>
    rcases List.mem_cons.1 h with rfl | h
    · rw [find?_cons_self, Option.isSome_some]
    · unfold find?
      split
      · rfl
      · exact ih h

theorem ne_of_mem {j : κ} {w : α} {rest : List (κ × α)} (h : Ascending ((j, w) :: rest)) :
    ∀ e ∈ rest, e.1 ≠ j := by
  intro e he eq
  have := (List.pairwise_cons.1 h).1 e he
  simp [eq, Std.ReflCmp.compare_self] at this

theorem find?_put_self (k : κ) (v : Option α) {l : List (κ × α)} (h : Ascending l) :
    find? k (put k v l) = v := by
  induction l with
  | nil => cases v <;> simp [put, entry, find?, Std.ReflCmp.compare_self]
  | cons head rest ih =>
    obtain ⟨j, w⟩ := head
    obtain ⟨above, tail⟩ := List.pairwise_cons.1 h
    unfold put
    split
    · next lt =>
      cases v with
      | some u => exact find?_cons_self k u _
      | none =>
        refine find?_eq_none fun e he eq => ?_
        have : compare k e.1 = .lt := by
          rcases List.mem_cons.1 he with rfl | he
          · exact lt
          · exact Std.TransCmp.lt_trans lt (above e he)
        simp [eq, Std.ReflCmp.compare_self] at this
    · next eq =>
      obtain rfl : k = j := Std.LawfulEqOrd.eq_of_compare eq
      cases v with
      | some u => exact find?_cons_self k u _
      | none => exact find?_eq_none (ne_of_mem h)
    · next gt =>
      have ne : k ≠ j := by
        rintro rfl
        simp [Std.ReflCmp.compare_self] at gt
      rw [find?_cons_of_ne _ _ ne, ih tail]

theorem find?_put_of_ne {k i : κ} (v : Option α) (l : List (κ × α)) (ne : i ≠ k) :
    find? i (put k v l) = find? i l := by
  have skip (l : List (κ × α)) : find? i (entry k v ++ l) = find? i l := by
    cases v with
    | none => rfl
    | some u => exact find?_cons_of_ne _ _ ne
  induction l with
  | nil => simpa [put] using skip []
  | cons head rest ih =>
    obtain ⟨j, w⟩ := head
    unfold put
    split
    · exact skip _
    · next eq =>
      obtain rfl : k = j := Std.LawfulEqOrd.eq_of_compare eq
      rw [skip, find?_cons_of_ne _ _ ne]
    · simp only [find?, ih]

theorem ext_find? {l m : List (κ × α)} (hl : Ascending l) (hm : Ascending m)
    (h : ∀ k, find? k l = find? k m) : l = m := by
  induction l generalizing m with
  | nil =>
    cases m with
    | nil => rfl
    | cons head rest => have := h head.1; rw [find?_cons_self] at this; cases this
  | cons head rest ih =>
    obtain ⟨j, w⟩ := head
    cases m with
    | nil => have := h j; rw [find?_cons_self] at this; cases this
    | cons head' rest' =>
      obtain ⟨i, u⟩ := head'
      obtain ⟨above, tail⟩ := List.pairwise_cons.1 hl
      obtain ⟨above', tail'⟩ := List.pairwise_cons.1 hm
      have eq : j = i := by
        by_cases eq : j = i
        · exact eq
        have h₁ : (i, u) ∈ rest := by
          have := h i
          rw [find?_cons_self, find?_cons_of_ne _ _ (Ne.symm eq)] at this
          exact mem_of_find? this
        have h₂ : (j, w) ∈ rest' := by
          have := h j
          rw [find?_cons_self, find?_cons_of_ne _ _ eq] at this
          exact mem_of_find? this.symm
        have := Std.TransCmp.lt_trans (above _ h₁) (above' _ h₂)
        simp [Std.ReflCmp.compare_self] at this
      subst eq
      have val : w = u := by have := h j; rw [find?_cons_self, find?_cons_self] at this; cases this; rfl
      subst val
      congr 1
      refine ih tail tail' fun k => ?_
      by_cases eq : k = j
      · subst eq
        rw [find?_eq_none (ne_of_mem hl), find?_eq_none (ne_of_mem hm)]
      · have := h k
        rwa [find?_cons_of_ne _ _ eq, find?_cons_of_ne _ _ eq] at this

end Entries

/-- A finite map, walked in ascending order of its keys. -/
structure Table (κ α : Type) [Ord κ] where
  entries : List (κ × α)
  ascending : Ascending entries

namespace Table

variable {κ α : Type} [Ord κ]

def empty : Table κ α := ⟨[], List.Pairwise.nil⟩

instance : EmptyCollection (Table κ α) := ⟨empty⟩
instance : Inhabited (Table κ α) := ⟨empty⟩

instance [DecidableEq κ] [DecidableEq α] : DecidableEq (Table κ α) := fun s t =>
  decidable_of_iff (s.entries = t.entries) ⟨fun h => by cases s; cases t; cases h; rfl, congrArg _⟩

def get? (t : Table κ α) (k : κ) : Option α := Entries.find? k t.entries

def contains (t : Table κ α) (k : κ) : Bool := (t.get? k).isSome

def keys (t : Table κ α) : List κ := t.entries.map Prod.fst

def size (t : Table κ α) : Nat := t.entries.length

def isEmpty (t : Table κ α) : Bool := t.entries.isEmpty

variable [Std.TransOrd κ] [Std.LawfulEqOrd κ]

def put (t : Table κ α) (k : κ) (v : Option α) : Table κ α :=
  ⟨Entries.put k v t.entries, Entries.ascending_put k v t.ascending⟩

def insert (t : Table κ α) (k : κ) (v : α) : Table κ α := t.put k (some v)

def erase (t : Table κ α) (k : κ) : Table κ α := t.put k none

/-- The table of a list of entries; of several entries with one key the last one counts. -/
def ofList (l : List (κ × α)) : Table κ α := l.foldl (fun t e => t.insert e.1 e.2) empty

@[simp] theorem get?_empty (k : κ) : (∅ : Table κ α).get? k = none := rfl

@[simp] theorem get?_put_self (t : Table κ α) (k : κ) (v : Option α) : (t.put k v).get? k = v :=
  Entries.find?_put_self k v t.ascending

theorem get?_put_of_ne (t : Table κ α) {k i : κ} (v : Option α) (ne : i ≠ k) :
    (t.put k v).get? i = t.get? i :=
  Entries.find?_put_of_ne v t.entries ne

theorem ext_get? {s t : Table κ α} (h : ∀ k, s.get? k = t.get? k) : s = t := by
  have := Entries.ext_find? s.ascending t.ascending h
  cases s; cases t; cases this; rfl

@[simp] theorem put_put_self (t : Table κ α) (k : κ) (v w : Option α) :
    (t.put k v).put k w = t.put k w := by
  refine ext_get? fun i => ?_
  by_cases h : i = k
  · subst h; simp
  · simp only [get?_put_of_ne _ _ h]

theorem put_comm (t : Table κ α) {j k : κ} (ne : j ≠ k) (v w : Option α) :
    (t.put j v).put k w = (t.put k w).put j v := by
  refine ext_get? fun i => ?_
  by_cases hj : i = j
  · subst hj; rw [get?_put_of_ne _ _ ne, get?_put_self, get?_put_self]
  · rw [get?_put_of_ne _ _ hj]
    by_cases hk : i = k
    · subst hk; simp
    · simp only [get?_put_of_ne _ _ hk, get?_put_of_ne _ _ hj]

theorem put_of_get? {t : Table κ α} {k : κ} {v : Option α} (h : t.get? k = v) : t.put k v = t := by
  refine ext_get? fun i => ?_
  by_cases hi : i = k
  · subst hi; rw [get?_put_self, h]
  · rw [get?_put_of_ne _ _ hi]

@[simp] theorem get?_insert_self (t : Table κ α) (k : κ) (v : α) : (t.insert k v).get? k = some v :=
  get?_put_self t k _

theorem get?_insert_of_ne (t : Table κ α) {k i : κ} (v : α) (ne : i ≠ k) :
    (t.insert k v).get? i = t.get? i :=
  get?_put_of_ne t _ ne

@[simp] theorem insert_insert_self (t : Table κ α) (k : κ) (v w : α) :
    (t.insert k v).insert k w = t.insert k w :=
  put_put_self t k _ _

theorem insert_comm (t : Table κ α) {j k : κ} (ne : j ≠ k) (v w : α) :
    (t.insert j v).insert k w = (t.insert k w).insert j v :=
  put_comm t ne _ _

theorem insert_of_get? {t : Table κ α} {k : κ} {v : α} (h : t.get? k = some v) : t.insert k v = t :=
  put_of_get? h

theorem erase_insert {t : Table κ α} {k : κ} (v : α) (h : t.get? k = none) :
    (t.insert k v).erase k = t := by
  rw [insert, erase, put_put_self, put_of_get? h]

theorem contains_insert (t : Table κ α) (k i : κ) (v : α) :
    (t.insert k v).contains i = true ↔ i = k ∨ t.contains i = true := by
  by_cases same : i = k
  · subst same
    simp [contains]
  · simp [contains, get?_insert_of_ne t v same, same]

theorem mem_keys_iff {t : Table κ α} {k : κ} : k ∈ t.keys ↔ t.contains k = true := by
  constructor
  · intro mem
    obtain ⟨e, held, rfl⟩ := List.mem_map.1 mem
    exact Entries.find?_isSome_of_mem held
  · intro held
    obtain ⟨v, found⟩ := Option.isSome_iff_exists.1 held
    exact List.mem_map.2 ⟨_, Entries.mem_of_find? found, rfl⟩

theorem nodup_keys (t : Table κ α) : t.keys.Nodup := by
  refine List.pairwise_map.2 (t.ascending.imp fun {a b} lt same => ?_)
  simp [same, Std.ReflCmp.compare_self] at lt

end Table

abbrev TextSet := Table String Unit

namespace TextSet

def ofList (l : List String) : TextSet := Table.ofList (l.map fun s => (s, ()))

theorem contains_ofList {l : List String} {s : String} : (ofList l).contains s = true ↔ s ∈ l := by
  have gathered (t : TextSet) : ((l.map fun s => (s, ())).foldl
      (fun t e => t.insert e.1 e.2) t).contains s = true ↔ s ∈ l ∨ t.contains s = true := by
    induction l generalizing t with
    | nil => simp
    | cons head rest ih =>
      rw [List.map_cons, List.foldl_cons, ih, Table.contains_insert, List.mem_cons, or_left_comm,
        or_assoc]
  exact (gathered ∅).trans (by simp [Table.contains])

theorem ext_contains {a b : TextSet} (h : ∀ s, a.contains s = true ↔ b.contains s = true) :
    a = b := by
  refine Table.ext_get? fun s => ?_
  have same := h s
  simp only [Table.contains] at same
  rcases left : a.get? s with _ | ⟨⟩ <;> rcases right : b.get? s with _ | ⟨⟩ <;> simp_all

end TextSet

end ContractHost
