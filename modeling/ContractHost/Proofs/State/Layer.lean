import ContractHost.State.Layer
import Mathlib.Logic.Function.Basic

/-!
What reading and writing through a layer come to.

A layer reads like one map: a change shows under its own key and under no other
(`get_put_self`, `get_put_of_ne`), however many prefixes and overlays lie in
between. Changes of the heap behave like changes of that map too, so of two
changes under one key the later one counts and changes under different keys
commute. From this comes `putAll_gathered`: passing on what an overlay has
gathered, key by key, leaves the very heap that making its changes one by one
in their order would have left.
-/

namespace ContractHost

namespace Heap

@[simp] theorem store_setStore_self (h : Heap) (s : String) (c : Store) :
    (h.setStore s c).store s = c := by
  simp [store, setStore]

@[simp] theorem overlay_setOverlay_self (h : Heap) (l : Layer) (w : Writes) :
    (h.setOverlay l w).overlay l = w := by
  simp [overlay, setOverlay]

theorem overlay_setOverlay_of_ne (h : Heap) {l m : Layer} (w : Writes) (ne : m ≠ l) :
    (h.setOverlay l w).overlay m = h.overlay m := by
  simp [overlay, setOverlay, Table.get?_insert_of_ne _ _ ne]

@[simp] theorem setStore_setStore (h : Heap) (s : String) (c d : Store) :
    (h.setStore s c).setStore s d = h.setStore s d := by
  simp [setStore]

@[simp] theorem setOverlay_setOverlay (h : Heap) (l : Layer) (v w : Writes) :
    (h.setOverlay l v).setOverlay l w = h.setOverlay l w := by
  simp [setOverlay]

end Heap

/-- The values under all keys once changes have been made one after the other. -/
def valuesAfter (values : Bytes → Option Bytes) (changes : List Change) : Bytes → Option Bytes :=
  changes.foldl (fun v c => Function.update v c.1 c.2) values

/-- The last change under a key, if there is one: the new value, or none if the key is deleted. -/
def lastChange? (k : Bytes) : List Change → Option (Option Bytes)
  | [] => none
  | c :: rest => (lastChange? k rest).or (if c.1 = k then some c.2 else none)

theorem lastChange?_append (k : Bytes) (first second : List Change) :
    lastChange? k (first ++ second) = (lastChange? k second).or (lastChange? k first) := by
  induction first with
  | nil => exact (Option.or_none ..).symm
  | cons c rest ih =>
      rw [List.cons_append, lastChange?, ih, Option.or_assoc]
      rfl

theorem lastChange?_eq_none_iff {k : Bytes} {changes : List Change} :
    lastChange? k changes = none ↔ k ∉ changes.map Prod.fst := by
  induction changes with
  | nil => simp [lastChange?]
  | cons c rest ih =>
      have head : (if c.1 = k then some c.2 else none) = none ↔ ¬ k = c.1 := by simp [eq_comm]
      rw [lastChange?, Option.or_eq_none_iff, ih, head, List.map_cons, List.mem_cons, not_or,
        and_comm]

/-- Changes leave under each key what the last of them put there. -/
theorem valuesAfter_eq (values : Bytes → Option Bytes) (changes : List Change) (k : Bytes) :
    valuesAfter values changes k = (lastChange? k changes).getD (values k) := by
  induction changes generalizing values with
  | nil => rfl
  | cons c rest ih =>
      show valuesAfter (Function.update values c.1 c.2) rest k = _
      rw [ih, lastChange?]
      cases lastChange? k rest with
      | some v => rfl
      | none =>
          by_cases same : c.1 = k
          · subst same
            simp
          · simp [same, Function.update_of_ne (Ne.symm same)]

theorem lastChange?_entries (writes : Writes) (k : Bytes) :
    lastChange? k writes.entries = writes.get? k := by
  obtain ⟨entries, asc⟩ := writes
  show lastChange? k entries = Entries.find? k entries
  induction entries with
  | nil => rfl
  | cons e rest ih =>
      obtain ⟨j, v⟩ := e
      rw [lastChange?, ih (List.pairwise_cons.1 asc).2]
      by_cases same : j = k
      · subst same
        rw [Entries.find?_cons_self, Entries.find?_eq_none (Entries.ne_of_mem asc)]
        simp
      · rw [Entries.find?_cons_of_ne _ _ (Ne.symm same)]
        simp [same]

namespace Layer

/-- What an overlay holds cannot be seen through a layer with fewer parts: the
overlay is not one of them. -/
theorem get_setOverlay_of_lt {l m : Layer} (lt : l.parts.length < m.parts.length) (h : Heap)
    (w : Writes) (k : Bytes) : l.get (h.setOverlay m w) k = l.get h k := by
  induction l generalizing k with
  | memory s => rfl
  | prefixed p l ih =>
      exact ih (Nat.lt_of_succ_lt lt) (p ++ k)
  | overlay o l ih =>
      have ne : Layer.overlay o l ≠ m := by
        rintro rfl
        exact Nat.lt_irrefl _ lt
      simp only [get, Heap.overlay_setOverlay_of_ne h w ne]
      split
      · rfl
      · exact ih (Nat.lt_of_succ_lt lt) k

theorem get_overlay (h : Heap) (o : String) (l : Layer) (k : Bytes) :
    (Layer.overlay o l).get h k = ((h.overlay (.overlay o l)).get? k).getD (l.get h k) := by
  rw [get]
  cases (h.overlay (.overlay o l)).get? k <;> rfl

@[simp] theorem get_put_self (l : Layer) (h : Heap) (k : Bytes) (v : Option Bytes) :
    l.get (l.put h k v) k = v := by
  induction l generalizing k with
  | memory s => simp [get, put]
  | prefixed p l ih => exact ih (p ++ k)
  | overlay o l _ => simp [get, put]

theorem get_put_of_ne (l : Layer) (h : Heap) {j k : Bytes} (v : Option Bytes) (ne : j ≠ k) :
    l.get (l.put h k v) j = l.get h j := by
  induction l generalizing j k with
  | memory s => simp [get, put, Table.get?_put_of_ne _ _ ne]
  | prefixed p l ih =>
      exact ih fun h => ne (List.append_cancel_left h)
  | overlay o l _ =>
      simp only [get, put, Heap.overlay_setOverlay_self, Table.get?_insert_of_ne _ _ ne]
      split
      · rfl
      · exact get_setOverlay_of_lt (Nat.lt_succ_self _) h _ j

theorem get_put (l : Layer) (h : Heap) (k : Bytes) (v : Option Bytes) :
    l.get (l.put h k v) = Function.update (l.get h) k v := by
  funext j
  by_cases eq : j = k
  · subst eq
    rw [get_put_self, Function.update_self]
  · rw [get_put_of_ne l h v eq, Function.update_of_ne eq]

theorem get_putAll (l : Layer) (h : Heap) (changes : List Change) :
    l.get (l.putAll h changes) = valuesAfter (l.get h) changes := by
  induction changes generalizing h with
  | nil => rfl
  | cons c rest ih =>
      show l.get (l.putAll (l.put h c.1 c.2) rest) = _
      rw [ih, get_put]
      rfl

@[simp] theorem put_put_self (l : Layer) (h : Heap) (k : Bytes) (v w : Option Bytes) :
    l.put (l.put h k v) k w = l.put h k w := by
  induction l generalizing k with
  | memory s => simp [put]
  | prefixed p l ih => exact ih (p ++ k)
  | overlay o l _ => simp [put]

theorem put_comm (l : Layer) (h : Heap) {j k : Bytes} (ne : j ≠ k) (v w : Option Bytes) :
    l.put (l.put h j v) k w = l.put (l.put h k w) j v := by
  induction l generalizing j k with
  | memory s => simp [put, Table.put_comm _ ne]
  | prefixed p l ih =>
      exact ih fun h => ne (List.append_cancel_left h)
  | overlay o l _ => simp [put, Table.insert_comm _ ne]

@[simp] theorem putAll_nil (l : Layer) (h : Heap) : l.putAll h [] = h := rfl

@[simp] theorem putAll_cons (l : Layer) (h : Heap) (c : Change) (rest : List Change) :
    l.putAll h (c :: rest) = l.putAll (l.put h c.1 c.2) rest := rfl

theorem get_putAll_prefixed {p k : Bytes} (away : ¬ p <+: k) (base : Layer) (h : Heap)
    (changes : List Change) : base.get ((Layer.prefixed p base).putAll h changes) k = base.get h k := by
  induction changes generalizing h with
  | nil => rfl
  | cons c rest ih =>
      rw [putAll_cons, ih]
      refine base.get_put_of_ne h c.2 ?_
      rintro rfl
      exact away (List.prefix_append p c.1)

theorem putAll_put (l : Layer) (h : Heap) {k : Bytes} (v : Option Bytes) {changes : List Change}
    (ne : ∀ c ∈ changes, c.1 ≠ k) :
    l.putAll (l.put h k v) changes = l.put (l.putAll h changes) k v := by
  induction changes generalizing h with
  | nil => rfl
  | cons c rest ih =>
      have hc : c.1 ≠ k := ne c List.mem_cons_self
      rw [putAll_cons, putAll_cons, put_comm l h hc.symm,
        ih _ fun d hd => ne d (List.mem_cons_of_mem _ hd)]

/-- The same for the entries of a table, where the later change takes the place
of an earlier one under its key. -/
theorem putAll_put_entries (l : Layer) (h : Heap) (k : Bytes) (v : Option Bytes)
    {entries : List Change} (asc : Ascending entries) :
    l.putAll h (Entries.put k (some v) entries) = l.put (l.putAll h entries) k v := by
  induction entries generalizing h with
  | nil => rfl
  | cons e rest ih =>
      obtain ⟨j, w⟩ := e
      have tail : Ascending rest := (List.pairwise_cons.1 asc).2
      unfold Entries.put
      split
      · next lt =>
        refine putAll_put l h v fun c hc eq => ?_
        -- every key of the table is beyond the one that goes in front
        have : compare k c.1 = .lt := by
          rcases List.mem_cons.1 hc with rfl | hc
          · exact lt
          · exact Std.TransCmp.lt_trans lt ((List.pairwise_cons.1 asc).1 c hc)
        simp [eq, Std.ReflCmp.compare_self] at this
      · next eq =>
        obtain rfl : k = j := Std.LawfulEqOrd.eq_of_compare eq
        show l.putAll (l.put h k v) rest = l.put (l.putAll (l.put h k w) rest) k v
        rw [← putAll_put l _ v (Entries.ne_of_mem asc), put_put_self]
      · exact ih (l.put h j w) tail

/-- Gathering a change and passing on what was gathered comes to the same as
passing on what was gathered before and then making the change. -/
theorem putAll_insert (l : Layer) (h : Heap) (writes : Writes) (k : Bytes) (v : Option Bytes) :
    l.putAll h (writes.insert k v).entries = l.put (l.putAll h writes.entries) k v :=
  putAll_put_entries l h k v writes.ascending

/-- Passing on what was gathered comes to the same as making the changes that
were gathered, one by one in their order. -/
theorem putAll_gathered (l : Layer) (h : Heap) (writes : Writes) (changes : List Change) :
    l.putAll h (changes.foldl (fun w c => w.insert c.1 c.2) writes).entries =
      l.putAll (l.putAll h writes.entries) changes := by
  induction changes generalizing writes with
  | nil => rfl
  | cons c rest ih =>
      rw [List.foldl_cons, ih, putAll_insert]
      rfl

end Layer

end ContractHost
