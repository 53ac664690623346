import ContractHost.Table

/-!
Entries in which a key may stand several times. The last entry under a key counts (`Entries.last?`),
and a table of entries keeps just these.
-/

namespace ContractHost

namespace Entries

section Ascending

variable {κ α : Type} [Ord κ] [Std.TransOrd κ] [Std.LawfulEqOrd κ] {l : List (κ × α)}

theorem find?_of_mem {e : κ × α} (ascending : Ascending l) (mem : e ∈ l) :
    find? e.1 l = some e.2 := by
  induction l with
  | nil => cases mem
  | cons head rest ih =>
      rcases List.mem_cons.1 mem with rfl | mem
      · exact find?_cons_self _ _ _
      · rw [find?_cons_of_ne _ _ (ne_of_mem ascending e mem),
          ih (List.pairwise_cons.1 ascending).2 mem]

end Ascending

variable {κ α β : Type} [DecidableEq κ] {k : κ} {l : List (κ × α)}

/-- What stands under a key; of several things under one key the last one counts. -/
def last? (k : κ) : List (κ × α) → Option α
  | [] => none
  | (j, v) :: rest => (last? k rest).or (if k = j then some v else none)

theorem last?_map (f : α → β) (k : κ) (l : List (κ × α)) :
    last? k (l.map fun e => (e.1, f e.2)) = (last? k l).map f := by
  induction l with
  | nil => rfl
  | cons e rest ih =>
      rw [List.map_cons, last?, last?, ih]
      cases last? k rest with
      | some v => rfl
      | none => by_cases same : k = e.1 <;> simp [same]

theorem mem_of_last? {v : α} (last : last? k l = some v) : (k, v) ∈ l := by
  induction l with
  | nil => cases last
  | cons e rest ih =>
      rw [last?, Option.or_eq_some_iff] at last
      obtain later | ⟨-, here⟩ := last
      · exact List.mem_cons_of_mem e (ih later)
      · split at here
        · next same =>
          cases here
          rw [same]
          exact List.mem_cons_self
        · cases here

variable [Ord κ] [Std.TransOrd κ] [Std.LawfulEqOrd κ]

theorem last?_eq_find? (ascending : Ascending l) (k : κ) : last? k l = find? k l := by
  induction l with
  | nil => rfl
  | cons e rest ih =>
      rw [last?, ih (List.pairwise_cons.1 ascending).2]
      by_cases same : k = e.1
      · subst same
        rw [find?_eq_none (ne_of_mem ascending), if_pos rfl, find?_cons_self]
        rfl
      · rw [find?_cons_of_ne _ _ same, if_neg same, Option.or_none]

end Entries

namespace Table

variable {κ α : Type} [DecidableEq κ] [Ord κ] [Std.TransOrd κ] [Std.LawfulEqOrd κ]
  {l : List (κ × α)}

theorem get?_ofList (k : κ) (l : List (κ × α)) : (ofList l).get? k = Entries.last? k l := by
  have gathered (t : Table κ α) :
      (l.foldl (fun t e => t.insert e.1 e.2) t).get? k = (Entries.last? k l).or (t.get? k) := by
    induction l generalizing t with
    | nil => rfl
    | cons e rest ih =>
        rw [List.foldl_cons, ih, Entries.last?, Option.or_assoc]
        by_cases same : k = e.1
        · simp [same]
        · simp [same, get?_insert_of_ne t e.2 same]
  rw [ofList, gathered]
  exact Option.or_none

theorem mem_of_mem_ofList {e : κ × α} (mem : e ∈ (ofList l).entries) : e ∈ l := by
  have found := Entries.find?_of_mem (ofList l).ascending mem
  have last := get?_ofList e.1 l
  rw [get?, found] at last
  exact Entries.mem_of_last? last.symm

theorem ofList_entries (t : Table κ α) : ofList t.entries = t := by
  refine ext_get? fun k => ?_
  rw [get?_ofList, Entries.last?_eq_find? t.ascending, get?]

end Table

end ContractHost
