import ContractHost.Proofs.State.Layer
import Mathlib.Data.Finset.Image
import Mathlib.Data.Finset.Card

/-!
Stacks of prefixes and overlays over a store.

Settling a stack commits all its overlays, from the top down. A write through the
top comes to the same as a write past all overlays, once the stack is settled
(`settle_put`), a read through the top gives what a read past all overlays would
give then (`get_settle`), and a commit of any overlay makes no difference to it
(`settle_commit`). So the settled store is the plain map that the stack stands
for, whatever is held back where. Beside the run goes a record of the keys that
each overlay was asked to change since it was last committed (`Layer.mark`); these are
the keys that its next commit passes on.
-/

namespace ContractHost

namespace Layer

def base : Layer → String
  | .memory s => s
  | .prefixed _ l => l.base
  | .overlay _ l => l.base

/-- What is put before a key on its way to the bottom: the prefixes, the lowest one first. -/
def lead : Layer → Bytes
  | .memory _ => []
  | .prefixed p l => l.lead ++ p
  | .overlay _ l => l.lead

/-- The way to the bottom past all overlays. -/
def direct (l : Layer) : Layer := .prefixed l.lead (.memory l.base)

def overlays : Layer → List Layer
  | .memory _ => []
  | .prefixed _ l => l.overlays
  | .overlay o l => .overlay o l :: l.overlays

/-- Commits all overlays of a stack, from the top down. -/
def settle : Layer → Heap → Heap
  | .memory _, h => h
  | .prefixed _ l, h => l.settle h
  | .overlay o l, h => l.settle (commit h o l).2

/-- The overlay that a write through a stack comes to first, and what is put before its key on the
way there. -/
def landing : Layer → Option (Layer × Bytes)
  | .memory _ => none
  | .prefixed p l => l.landing.map fun (o, q) => (o, q ++ p)
  | .overlay o l => some (.overlay o l, [])

variable {l m inner : Layer} {h : Heap} {name : String}

theorem parts_length_le (part : m ∈ l.overlays) : m.parts.length ≤ l.parts.length := by
  induction l with
  | memory s => cases part
  | prefixed p l ih => exact Nat.le_succ_of_le (ih part)
  | overlay o l ih =>
      rcases List.mem_cons.1 part with rfl | part
      · exact Nat.le_refl _
      · exact Nat.le_succ_of_le (ih part)

section Above

/-! What an overlay holds makes no difference to a layer with fewer parts. -/

theorem put_setOverlay (lt : l.parts.length < m.parts.length) (h : Heap) (w : Writes) (k : Bytes)
    (v : Option Bytes) : l.put (h.setOverlay m w) k v = (l.put h k v).setOverlay m w := by
  induction l generalizing k with
  | memory s => rfl
  | prefixed p l ih => exact ih (Nat.lt_of_succ_lt lt) (p ++ k)
  | overlay o l _ =>
      have ne : Layer.overlay o l ≠ m := by
        rintro rfl
        exact Nat.lt_irrefl _ lt
      simp only [put, Heap.overlay_setOverlay_of_ne h w ne]
      simp only [Heap.setOverlay, Table.insert_comm _ ne.symm]

theorem putAll_setOverlay (lt : l.parts.length < m.parts.length) (h : Heap) (w : Writes)
    (changes : List Change) :
    l.putAll (h.setOverlay m w) changes = (l.putAll h changes).setOverlay m w := by
  induction changes generalizing h with
  | nil => rfl
  | cons c rest ih => rw [putAll_cons, put_setOverlay lt, ih, putAll_cons]

theorem overlay_put_of_lt (lt : l.parts.length < m.parts.length) (h : Heap) (k : Bytes)
    (v : Option Bytes) : (l.put h k v).overlay m = h.overlay m := by
  induction l generalizing k with
  | memory s => rfl
  | prefixed p l ih => exact ih (Nat.lt_of_succ_lt lt) (p ++ k)
  | overlay o l _ =>
      refine Heap.overlay_setOverlay_of_ne h _ ?_
      rintro rfl
      exact Nat.lt_irrefl _ lt

theorem overlay_putAll_of_lt (lt : l.parts.length < m.parts.length) (h : Heap)
    (changes : List Change) : (l.putAll h changes).overlay m = h.overlay m := by
  induction changes generalizing h with
  | nil => rfl
  | cons c rest ih => rw [putAll_cons, ih, overlay_put_of_lt lt]

theorem commit_setOverlay (lt : (Layer.overlay name inner).parts.length < m.parts.length)
    (h : Heap) (w : Writes) :
    (commit (h.setOverlay m w) name inner).2 = (commit h name inner).2.setOverlay m w := by
  have ne : Layer.overlay name inner ≠ m := by
    rintro rfl
    exact Nat.lt_irrefl _ lt
  have swap : (h.setOverlay m w).setOverlay (.overlay name inner) ∅ =
      (h.setOverlay (.overlay name inner) ∅).setOverlay m w := by
    simp only [Heap.setOverlay, Table.insert_comm _ ne]
  simp only [commit, Heap.overlay_setOverlay_of_ne h w ne, swap]
  exact putAll_setOverlay (Nat.lt_of_succ_lt lt) _ w _

theorem overlay_commit_of_lt (lt : (Layer.overlay name inner).parts.length < m.parts.length)
    (h : Heap) : (commit h name inner).2.overlay m = h.overlay m := by
  have ne : m ≠ Layer.overlay name inner := by
    rintro rfl
    exact Nat.lt_irrefl _ lt
  exact (overlay_putAll_of_lt (Nat.lt_of_succ_lt lt) _ _).trans
    (Heap.overlay_setOverlay_of_ne h ∅ ne)

end Above

/-- What is left of a heap in which an overlay was committed: the overlay holds nothing, and what
it held was passed on. -/
theorem commit_snd (h : Heap) (name : String) (inner : Layer) :
    (commit h name inner).2 =
      (inner.putAll h (h.overlay (.overlay name inner)).entries).setOverlay (.overlay name inner) ∅ :=
  putAll_setOverlay (Nat.lt_succ_self _) h ∅ _

@[simp] theorem overlay_commit_self (h : Heap) (name : String) (inner : Layer) :
    (commit h name inner).2.overlay (.overlay name inner) = ∅ := by
  rw [commit_snd, Heap.overlay_setOverlay_self]

theorem commit_again (h : Heap) (name : String) (inner : Layer) :
    commit (commit h name inner).2 name inner = (0, (commit h name inner).2) := by
  have same : (commit h name inner).2.setOverlay (.overlay name inner) ∅ =
      (commit h name inner).2 := by
    rw [commit_snd, Heap.setOverlay_setOverlay]
  have empty := overlay_commit_self h name inner
  generalize commit h name inner = committed at same empty ⊢
  simp only [commit, empty, same]
  rfl

section Settling

/-- A write through the top comes to a write past all overlays. -/
theorem settle_put (l : Layer) (h : Heap) (k : Bytes) (v : Option Bytes) :
    l.settle (l.put h k v) = l.direct.put (l.settle h) k v := by
  induction l generalizing h k with
  | memory s => rfl
  | prefixed p l ih =>
      refine (ih h (p ++ k)).trans ?_
      simp only [direct, put, lead, base, settle, List.append_assoc]
  | overlay o l ih =>
      simp only [put, settle, commit, Heap.overlay_setOverlay_self, Heap.setOverlay_setOverlay,
        putAll_insert]
      exact ih _ k

theorem settle_putAll (l : Layer) (h : Heap) (changes : List Change) :
    l.settle (l.putAll h changes) = l.direct.putAll (l.settle h) changes := by
  induction changes generalizing h with
  | nil => rfl
  | cons c rest ih => rw [putAll_cons, ih, settle_put, putAll_cons]

/-- A read through the top gives what a read past all overlays gives once the stack is settled. -/
theorem get_settle (l : Layer) (h : Heap) (k : Bytes) :
    l.get h k = l.direct.get (l.settle h) k := by
  induction l generalizing h k with
  | memory s => rfl
  | prefixed p l ih =>
      refine (ih h (p ++ k)).trans ?_
      simp only [direct, get, lead, base, settle, List.append_assoc]
  | overlay o l ih =>
      have below : l.direct.get (l.settle (commit h o l).2) k =
          ((h.overlay (.overlay o l)).get? k).getD (l.get h k) := by
        rw [← ih, commit, get_putAll, valuesAfter_eq, lastChange?_entries,
          get_setOverlay_of_lt (Nat.lt_succ_self _)]
      exact (get_overlay h o l k).trans below.symm

/-- A commit of any overlay of a stack makes no difference once the stack is settled. -/
theorem settle_commit (part : .overlay name inner ∈ l.overlays) (h : Heap) :
    l.settle (commit h name inner).2 = l.settle h := by
  induction l generalizing h with
  | memory s => cases part
  | prefixed p l ih => exact ih part h
  | overlay o l ih =>
      rcases List.mem_cons.1 part with top | below
      · cases top
        simp only [settle, commit_again]
      · -- what the top holds is passed on after the commit, as it would have been before
        have lt : (Layer.overlay name inner).parts.length < (Layer.overlay o l).parts.length :=
          Nat.lt_succ_of_le (parts_length_le below)
        calc l.settle (commit (commit h name inner).2 o l).2
            = l.settle (l.putAll (commit (h.setOverlay (.overlay o l) ∅) name inner).2
                (h.overlay (.overlay o l)).entries) := by
              rw [commit_setOverlay lt, commit, overlay_commit_of_lt lt]
          _ = l.direct.putAll (l.settle (h.setOverlay (.overlay o l) ∅))
                (h.overlay (.overlay o l)).entries := by
              rw [settle_putAll, ih below]
          _ = l.settle (commit h o l).2 := (settle_putAll l _ _).symm

theorem stores_settle (fresh : ∀ o ∈ l.overlays, h.overlay o = ∅) :
    (l.settle h).stores = h.stores := by
  induction l generalizing h with
  | memory s => rfl
  | prefixed p l ih => exact ih fresh
  | overlay o l ih =>
      obtain ⟨top, below⟩ := List.forall_mem_cons.1 fresh
      have none : (commit h o l).2 = h.setOverlay (.overlay o l) ∅ := by
        simp only [commit, top]
        rfl
      rw [settle, none, ih]
      · rfl
      · intro m part
        refine (Heap.overlay_setOverlay_of_ne h ∅ ?_).trans (below m part)
        rintro rfl
        exact Nat.not_succ_le_self _ (parts_length_le part)

theorem stores_put (covered : l.overlays ≠ []) (h : Heap) (k : Bytes) (v : Option Bytes) :
    (l.put h k v).stores = h.stores := by
  induction l generalizing k with
  | memory s => exact absurd rfl covered
  | prefixed p l ih => exact ih covered (p ++ k)
  | overlay o l _ => rfl

theorem stores_commit (covered : inner.overlays ≠ []) (h : Heap) (name : String) :
    (commit h name inner).2.stores = h.stores := by
  have all (h : Heap) (changes : List Change) : (inner.putAll h changes).stores = h.stores := by
    induction changes generalizing h with
    | nil => rfl
    | cons c rest ih => rw [putAll_cons, ih, stores_put covered]
  exact all _ _

end Settling

end Layer

/-- For each overlay, keys under which it holds writes back. -/
abbrev Marks := Layer → Finset Bytes

/-- The keys under which the overlays of a heap hold writes back. -/
def Heap.marks (h : Heap) : Marks := fun o => (h.overlay o).keys.toFinset

namespace Layer

/-- Writes under keys come through a layer to the next overlay, if there is one. -/
def mark (l : Layer) (keys : Finset Bytes) (t : Marks) : Marks :=
  match l.landing with
  | none => t
  | some (o, q) => Function.update t o (t o ∪ keys.image (q ++ ·))

variable {l : Layer} {h : Heap} {name : String} {inner : Layer}

theorem mark_congr {t u : Marks} {o : Layer} (same : t o = u o) (keys : Finset Bytes) :
    l.mark keys t o = l.mark keys u o := by
  unfold mark
  rcases l.landing with _ | ⟨m, q⟩
  · exact same
  · by_cases here : o = m
    · subst here
      simp only [Function.update_self, same]
    · simp only [Function.update_of_ne here, same]

theorem mark_mark (l : Layer) (a b : Finset Bytes) (t : Marks) :
    l.mark b (l.mark a t) = l.mark (a ∪ b) t := by
  unfold mark
  rcases l.landing with _ | ⟨m, q⟩
  · rfl
  · simp only [Function.update_self, Function.update_idem, Finset.image_union, Finset.union_assoc]

theorem mark_empty (l : Layer) (t : Marks) : l.mark ∅ t = t := by
  unfold mark
  rcases l.landing with _ | ⟨m, q⟩
  · rfl
  · simp only [Finset.image_empty, Finset.union_empty, Function.update_eq_self]

theorem marks_setOverlay (h : Heap) (o : Layer) (w : Writes) :
    (h.setOverlay o w).marks = Function.update h.marks o w.keys.toFinset := by
  funext m
  unfold Heap.marks
  by_cases here : m = o
  · subst here
    rw [Heap.overlay_setOverlay_self, Function.update_self]
  · rw [Heap.overlay_setOverlay_of_ne h w here, Function.update_of_ne here]

theorem toFinset_keys_insert (w : Writes) (k : Bytes) (v : Option Bytes) :
    (w.insert k v).keys.toFinset = w.keys.toFinset ∪ {k} := by
  ext j
  simp only [List.mem_toFinset, Finset.mem_union, Finset.mem_singleton, Table.mem_keys_iff,
    Table.contains_insert, or_comm]

/-- A write is held back by the overlay that it comes to, and by no other. -/
theorem marks_put (l : Layer) (h : Heap) (k : Bytes) (v : Option Bytes) :
    (l.put h k v).marks = l.mark {k} h.marks := by
  induction l generalizing k with
  | memory s => rfl
  | prefixed p l ih =>
      refine (ih (p ++ k)).trans ?_
      simp only [mark, landing]
      rcases l.landing with _ | ⟨m, q⟩
      · rfl
      · simp only [Option.map_some, Finset.image_singleton, List.append_assoc]
  | overlay o l _ =>
      refine (marks_setOverlay h _ _).trans ?_
      simp only [mark, landing, toFinset_keys_insert, Finset.image_singleton, List.nil_append]
      rfl

theorem marks_putAll (l : Layer) (h : Heap) (changes : List Change) :
    (l.putAll h changes).marks = l.mark (changes.map Prod.fst).toFinset h.marks := by
  induction changes generalizing h with
  | nil => exact (l.mark_empty h.marks).symm
  | cons c rest ih =>
      rw [putAll_cons, ih, marks_put, mark_mark, List.map_cons, List.toFinset_cons,
        Finset.insert_eq]

theorem marks_commit (h : Heap) (name : String) (inner : Layer) :
    (commit h name inner).2.marks =
      inner.mark (h.marks (.overlay name inner))
        (Function.update h.marks (.overlay name inner) ∅) := by
  refine (marks_putAll inner _ _).trans ?_
  rw [marks_setOverlay]
  rfl

end Layer

/-- Something that is done with a stack: through its top, or with one of its overlays. -/
inductive StackStep (l : Layer) where
  | get (k : Bytes)
  /-- Sets a value, or deletes the key if no value is given. -/
  | put (k : Bytes) (v : Option Bytes)
  | commit (name : String) (inner : Layer) (part : .overlay name inner ∈ l.overlays)

namespace StackStep

variable {l : Layer}

def next (h : Heap) : StackStep l → Heap
  | .get _ => h
  | .put k v => l.put h k v
  | .commit name inner _ => (Layer.commit h name inner).2

/-- A plain map after the step. It has no overlays, so there is nothing to commit. -/
def onMap (m : Store) : StackStep l → Store
  | .get _ => m
  | .put k v => m.put (l.lead ++ k) v
  | .commit .. => m

/-- The keys that each overlay was asked to change since it was last committed. -/
def mark (t : Marks) : StackStep l → Marks
  | .get _ => t
  | .put k _ => l.mark {k} t
  | .commit name inner _ =>
    inner.mark (t (.overlay name inner)) (Function.update t (.overlay name inner) ∅)

end StackStep

/-- A heap is as the plain map and the marks of the same steps have it. -/
structure Layer.Stands (l : Layer) (h : Heap) (m : Store) (t : Marks) : Prop where
  store : (l.settle h).store l.base = m
  marks : ∀ o ∈ l.overlays, h.marks o = t o

/-- What a stack promises in a heap to which steps have led, where the same steps made `m` of a
plain map and `t` are the keys that each overlay was asked to change since it was last committed. -/
structure Layer.Transparent (l : Layer) (h : Heap) (m : Store) (t : Marks) : Prop where
  /-- Reading through the top is reading the plain map, behind all prefixes. -/
  reads (k : Bytes) : l.get h k = m.get? (l.lead ++ k)
  /-- No commit can be seen through the top. -/
  unseen {name : String} {inner : Layer} (part : .overlay name inner ∈ l.overlays) :
    l.get (commit h name inner).2 = l.get h
  /-- Under an overlay, the stores change only when the lowest one is committed. -/
  shielded (step : StackStep l) (covered : l.overlays ≠ [])
    (above : ∀ name inner part, step = .commit name inner part → inner.overlays ≠ []) :
    (step.next h).stores = h.stores
  /-- Committing all overlays from the top down leaves the plain map in the store. -/
  settles : (l.settle h).store l.base = m
  /-- A commit passes on one change for each key that the overlay was asked to change since it was
  last committed, and says how many they were. -/
  passes {name : String} {inner : Layer} (part : .overlay name inner ∈ l.overlays) :
    ∃ changes : List Change, (changes.map Prod.fst).Nodup ∧
      (changes.map Prod.fst).toFinset = t (.overlay name inner) ∧
      commit h name inner =
        (changes.length, inner.putAll (h.setOverlay (.overlay name inner) ∅) changes) ∧
      changes.length = (h.overlay (.overlay name inner)).size ∧
      ((commit h name inner).2.overlay (.overlay name inner)).size = 0

namespace Layer.Stands

variable {l : Layer} {h : Heap} {m : Store} {t : Marks}

theorem of_fresh (fresh : ∀ o ∈ l.overlays, h.overlay o = ∅) :
    l.Stands h (h.store l.base) fun _ => ∅ where
  store := by rw [Heap.store, stores_settle fresh, Heap.store]
  marks o part := by
    rw [Heap.marks, fresh o part]
    rfl

/-- A step does the same to the heap, to the plain map and to the marks. -/
theorem next (s : l.Stands h m t) (step : StackStep l) :
    l.Stands (step.next h) (step.onMap m) (step.mark t) := by
  cases step with
  | get k => exact s
  | put k v =>
      refine ⟨?_, fun o part => ?_⟩
      · rw [StackStep.next, settle_put, direct, put, put, Heap.store_setStore_self, s.store]
        rfl
      · rw [StackStep.next, marks_put]
        exact mark_congr (s.marks o part) {k}
  | commit name inner part =>
      refine ⟨?_, fun o other => ?_⟩
      · rw [StackStep.next, settle_commit part, s.store]
        rfl
      · rw [StackStep.next, marks_commit, s.marks _ part]
        refine mark_congr ?_ _
        by_cases same : o = .overlay name inner
        · rw [same, Function.update_self, Function.update_self]
        · rw [Function.update_of_ne same, Function.update_of_ne same, s.marks o other]

theorem play (s : l.Stands h m t) (steps : List (StackStep l)) :
    l.Stands (steps.foldl StackStep.next h) (steps.foldl StackStep.onMap m)
      (steps.foldl StackStep.mark t) := by
  induction steps generalizing h m t with
  | nil => exact s
  | cons step rest ih => exact ih (s.next step)

theorem transparent (s : l.Stands h m t) : l.Transparent h m t where
  reads k := by
    rw [get_settle, direct, get, get, s.store]
  unseen part := by
    funext k
    rw [get_settle, settle_commit part, ← get_settle]
  shielded step covered above := by
    cases step with
    | get k => rfl
    | put k v => exact stores_put covered h k v
    | commit name inner part => exact stores_commit (above name inner part rfl) h name
  settles := s.store
  passes {name inner} part := by
    refine ⟨(h.overlay (.overlay name inner)).entries, (h.overlay _).nodup_keys,
      s.marks _ part, rfl, rfl, ?_⟩
    rw [overlay_commit_self]
    rfl

end Layer.Stands

/-- Stacks are transparent. However prefixes and overlays are stacked over a store, and whatever is
read, written and committed in whatever order: the stack reads like one map, the commits cannot be
seen through it, the store changes only when the lowest overlay is committed, committing everything
leaves that map in the store, and each commit passes on one change for each key. -/
theorem stack_transparent (l : Layer) (h : Heap) (fresh : ∀ o ∈ l.overlays, h.overlay o = ∅)
    (steps : List (StackStep l)) :
    l.Transparent (steps.foldl StackStep.next h)
      (steps.foldl StackStep.onMap (h.store l.base))
      (steps.foldl StackStep.mark fun _ => ∅) :=
  ((Layer.Stands.of_fresh fresh).play steps).transparent

namespace Sample

def stack : Layer := .overlay "top" (.prefixed [2] (.overlay "low" (.prefixed [1] (.memory "chain"))))

/-- A heap with a value under the prefixes of the stack, and one beside them. -/
def filled : Heap :=
  Heap.empty.setStore "chain" (Table.ofList [([1, 2, 3], [30]), ([5], [50])])

/-- A key is deleted through the top and the deletion goes down one level; then another key is set,
and the deletion goes down to the store. -/
def errands : List (StackStep stack) :=
  [.put [3] none,
    .commit "top" (.prefixed [2] (.overlay "low" (.prefixed [1] (.memory "chain"))))
      List.mem_cons_self,
    .put [4] (some [40]),
    .commit "low" (.prefixed [1] (.memory "chain")) (List.mem_cons_of_mem _ List.mem_cons_self)]

end Sample

/-- The deletion is seen wherever it is, and the key that was set is still held back in the end. -/
theorem stack_transparent_errands :
    (∀ o ∈ Sample.stack.overlays, Sample.filled.overlay o = ∅) ∧
      Sample.stack.get (Sample.errands.foldl StackStep.next Sample.filled) [3] = none ∧
      (Sample.stack.settle (Sample.errands.foldl StackStep.next Sample.filled)).store "chain" =
        Table.ofList [([1, 2, 4], [40]), ([5], [50])] ∧
      (Layer.commit (Sample.errands.foldl StackStep.next Sample.filled) "top"
        (.prefixed [2] (.overlay "low" (.prefixed [1] (.memory "chain"))))).1 = 1 := by
  have fresh : ∀ o ∈ Sample.stack.overlays, Sample.filled.overlay o = ∅ := by decide +kernel
  have plain : Sample.errands.foldl StackStep.onMap (Sample.filled.store "chain") =
      Table.ofList [([1, 2, 4], [40]), ([5], [50])] := by decide +kernel
  have kept := stack_transparent Sample.stack Sample.filled fresh Sample.errands
  obtain ⟨changes, once, keys, passed, -⟩ := kept.passes List.mem_cons_self
  refine ⟨fresh, ?_, kept.settles.trans plain, ?_⟩
  · exact (kept.reads [3]).trans (congrArg (Table.get? · [1, 2, 3]) plain)
  · rw [passed]
    show changes.length = 1
    rw [← List.length_map Prod.fst, ← List.toFinset_card_of_nodup once, keys]
    decide +kernel

end ContractHost
