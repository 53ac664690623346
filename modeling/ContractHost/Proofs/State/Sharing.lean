import ContractHost.Proofs.State.Stack

/-!
Two overlays over one store, each with a client of its own.

The clients read, write and commit by turns, in any order; each of them commits
once, and is done then. After any part of such a course, an overlay that is not
committed yet holds what its own client changed, and the store is the initial one
with what the other client changed, if that was committed (`OverlayPair.Midway`).
One more step of either client keeps this, so no change gets lost: in the end the
store has the last change of each client under each key, and where both changed
a key, that of the client who committed last.
-/

namespace ContractHost

/-- Two overlays over one store, with names of their own. -/
structure OverlayPair where
  store : String
  left : String
  right : String
  apart : left ≠ right

inductive Side where
  | left
  | right
  deriving DecidableEq

def Side.other : Side → Side
  | .left => .right
  | .right => .left

theorem Side.other_ne (side : Side) : side.other ≠ side := by cases side <;> nofun

@[simp] theorem Side.other_other (side : Side) : side.other.other = side := by cases side <;> rfl

theorem Side.eq_other {a b : Side} (ne : a ≠ b) : a = b.other := by
  cases a <;> cases b <;> first | rfl | exact absurd rfl ne

inductive OverlayStep where
  | get (k : Bytes)
  /-- Sets a value, or deletes the key if no value is given. -/
  | put (k : Bytes) (v : Option Bytes)
  | commit
  deriving DecidableEq

def OverlayStep.change? : OverlayStep → Option Change
  | .put k v => some (k, v)
  | _ => none

/-- Steps of both clients, in the order in which they are taken. -/
abbrev Course := List (Side × OverlayStep)

namespace Course

def own (side : Side) (steps : Course) : List OverlayStep :=
  steps.filterMap fun s => if s.1 = side then some s.2 else none

def Committed (side : Side) (steps : Course) : Prop := .commit ∈ steps.own side

instance (side : Side) (steps : Course) : Decidable (steps.Committed side) :=
  inferInstanceAs (Decidable (_ ∈ _))

def changes (side : Side) (steps : Course) : List Change :=
  (steps.own side).filterMap OverlayStep.change?

/-- Those that have come to the store: all or none of them. -/
def landed (side : Side) (steps : Course) : List Change :=
  if steps.Committed side then steps.changes side else []

variable {side : Side} {steps : Course} {x : OverlayStep}

theorem own_append (side : Side) (first second : Course) :
    own side (first ++ second) = own side first ++ own side second := by
  simp [own]

theorem own_cons_self (side : Side) (x : OverlayStep) (rest : Course) :
    own side ((side, x) :: rest) = x :: own side rest := by
  simp [own]

theorem own_self_append (side : Side) (steps : Course) (x : OverlayStep) :
    own side (steps ++ [(side, x)]) = own side steps ++ [x] := by
  rw [own_append, own_cons_self]
  rfl

theorem own_other_append (side : Side) (steps : Course) (x : OverlayStep) :
    own side.other (steps ++ [(side, x)]) = own side.other steps := by
  simp [own, side.other_ne.symm]

theorem changes_self_append (side : Side) (steps : Course) (x : OverlayStep) :
    changes side (steps ++ [(side, x)]) = changes side steps ++ x.change?.toList := by
  rw [changes, own_self_append, List.filterMap_append]
  cases x <;> rfl

theorem changes_other_append (side : Side) (steps : Course) (x : OverlayStep) :
    changes side.other (steps ++ [(side, x)]) = changes side.other steps := by
  rw [changes, own_other_append, changes]

theorem committed_self_append :
    Committed side (steps ++ [(side, x)]) ↔ steps.Committed side ∨ x = .commit := by
  rw [Committed, own_self_append, List.mem_append, List.mem_singleton, Committed, eq_comm]

theorem committed_other_append :
    Committed side.other (steps ++ [(side, x)]) ↔ steps.Committed side.other := by
  rw [Committed, own_other_append, Committed]

theorem landed_of_active (active : ¬ steps.Committed side) : steps.landed side = [] := if_neg active

theorem landed_other_append (side : Side) (steps : Course) (x : OverlayStep) :
    landed side.other (steps ++ [(side, x)]) = landed side.other steps := by
  simp only [landed, committed_other_append, changes_other_append]

theorem landed_commit (side : Side) (steps : Course) :
    landed side (steps ++ [(side, .commit)]) = steps.changes side := by
  have done : Committed side (steps ++ [(side, .commit)]) := committed_self_append.2 (.inr rfl)
  rw [landed, if_pos done, changes_self_append]
  exact List.append_nil _

end Course

/-- A course in which each client commits once, as its last step. -/
structure Schedule where
  steps : Course
  once (side : Side) : ∃ before, steps.own side = before ++ [.commit] ∧ .commit ∉ before

namespace Schedule

variable {t : Schedule} {before after : Course} {side : Side} {x : OverlayStep}

def CommitsLast (t : Schedule) (side : Side) : Prop := t.steps.getLast? = some (side, .commit)

def touched (t : Schedule) (side : Side) : List Bytes := (t.steps.changes side).map Prod.fst

theorem open_of_next (cut : t.steps = before ++ (side, x) :: after) :
    ¬ before.Committed side := by
  intro done
  obtain ⟨ops, own, none⟩ := t.once side
  have whole : before.own side ++ x :: Course.own side after = ops ++ [.commit] := by
    rw [← own, cut, Course.own_append, Course.own_cons_self]
  have front : ops = before.own side ++ (x :: Course.own side after).dropLast := by
    rw [← List.dropLast_append_of_ne_nil (List.cons_ne_nil _ _), whole, List.dropLast_concat]
  exact none (front ▸ List.mem_append_left _ done)

theorem exists_last (t : Schedule) :
    ∃ (before : Course) (side : Side), t.CommitsLast side ∧
      t.steps = before ++ [(side, .commit)] ∧ before.Committed side.other := by
  rcases List.eq_nil_or_concat t.steps with none | ⟨before, ⟨side, x⟩, cut⟩
  · obtain ⟨ops, own, -⟩ := t.once .left
    rw [none] at own
    exact absurd own.symm (List.append_ne_nil_of_right_ne_nil _ (List.cons_ne_nil _ _))
  · rw [List.concat_eq_append] at cut
    obtain ⟨ops, own, -⟩ := t.once side
    obtain ⟨ops', own', -⟩ := t.once side.other
    rw [cut, Course.own_self_append] at own
    rw [cut, Course.own_other_append] at own'
    obtain rfl : x = .commit := List.singleton_inj.1 (List.append_inj_right' own rfl)
    refine ⟨before, side, ?_, cut, ?_⟩
    · rw [CommitsLast, cut, List.getLast?_concat]
    · rw [Course.Committed, own']
      exact List.mem_append_right _ List.mem_cons_self

end Schedule

namespace OverlayPair

def memory (p : OverlayPair) : Layer := .memory p.store

def name (p : OverlayPair) : Side → String
  | .left => p.left
  | .right => p.right

def layer (p : OverlayPair) (side : Side) : Layer := .overlay (p.name side) p.memory

def next (p : OverlayPair) (h : Heap) : Side × OverlayStep → Heap
  | (_, .get _) => h
  | (side, .put k v) => (p.layer side).put h k v
  | (side, .commit) => (Layer.commit h (p.name side) p.memory).2

def play (p : OverlayPair) (h : Heap) (steps : Course) : Heap := steps.foldl p.next h

variable {p : OverlayPair} {first h : Heap} {side : Side}

theorem layer_other_ne (p : OverlayPair) (side : Side) : p.layer side.other ≠ p.layer side := by
  intro same
  have names : p.name side.other = p.name side := by injection same
  cases side
  · exact p.apart names.symm
  · exact p.apart names

section Steps

theorem layer_lt (p : OverlayPair) (side : Side) :
    p.memory.parts.length < (p.layer side).parts.length := Nat.lt_succ_self _

theorem overlay_next_other (p : OverlayPair) (h : Heap) (side : Side) (x : OverlayStep) :
    (p.next h (side, x)).overlay (p.layer side.other) = h.overlay (p.layer side.other) := by
  cases x with
  | get k => rfl
  | put k v => exact Heap.overlay_setOverlay_of_ne h _ (p.layer_other_ne side)
  | commit =>
      rw [next, Layer.commit_snd]
      exact (Heap.overlay_setOverlay_of_ne _ _ (p.layer_other_ne side)).trans
        (Layer.overlay_putAll_of_lt (p.layer_lt side.other) h _)

/-- Up to the commit, changes gather in the overlay of the client that makes them. -/
theorem overlay_next_self (p : OverlayPair) (h : Heap) (side : Side) {x : OverlayStep}
    (goes : x ≠ .commit) (k : Bytes) :
    ((p.next h (side, x)).overlay (p.layer side)).get? k =
      (lastChange? k x.change?.toList).or ((h.overlay (p.layer side)).get? k) := by
  cases x with
  | get j => rfl
  | put j v =>
      have held : (p.next h (side, .put j v)).overlay (p.layer side) =
          (h.overlay (p.layer side)).insert j v := Heap.overlay_setOverlay_self h _ _
      rw [held, OverlayStep.change?, Option.toList_some, lastChange?]
      by_cases same : j = k
      · subst same
        simp [lastChange?]
      · simp [lastChange?, same, Table.get?_insert_of_ne _ _ (Ne.symm same)]
  | commit => exact absurd rfl goes

theorem store_next (p : OverlayPair) (h : Heap) (side : Side) {x : OverlayStep}
    (goes : x ≠ .commit) : (p.next h (side, x)).store p.store = h.store p.store := by
  cases x with
  | get k => rfl
  | put k v => rfl
  | commit => exact absurd rfl goes

theorem get?_store_commit (p : OverlayPair) (h : Heap) (side : Side) (k : Bytes) :
    ((p.next h (side, .commit)).store p.store).get? k =
      ((h.overlay (p.layer side)).get? k).getD ((h.store p.store).get? k) := by
  have shown : p.memory.get (p.next h (side, .commit)) k =
      valuesAfter (p.memory.get (h.setOverlay (p.layer side) ∅))
        (h.overlay (p.layer side)).entries k :=
    congrFun (Layer.get_putAll p.memory _ _) k
  rw [valuesAfter_eq, lastChange?_entries] at shown
  exact shown

end Steps

/-- After a part of a course: an overlay that is not committed holds the changes of its client, and
the store is the first one with what the other client changed, if that was committed. -/
structure Midway (p : OverlayPair) (first : Heap) (steps : Course) (h : Heap) : Prop where
  held {side : Side} (active : ¬ steps.Committed side) (k : Bytes) :
    (h.overlay (p.layer side)).get? k = lastChange? k (steps.changes side)
  store {side : Side} (active : ¬ steps.Committed side) (k : Bytes) :
    (h.store p.store).get? k =
      (lastChange? k (steps.landed side.other)).getD ((first.store p.store).get? k)

namespace Midway

variable {steps : Course}

theorem start (fresh : ∀ side, first.overlay (p.layer side) = ∅) : p.Midway first [] first where
  held _ k := by
    rw [fresh]
    rfl
  store _ k := rfl

theorem next (m : p.Midway first steps h) (active : ¬ steps.Committed side) (x : OverlayStep) :
    p.Midway first (steps ++ [(side, x)]) (p.next h (side, x)) where
  held {client} still k := by
    by_cases own : client = side
    · subst own
      have goes : x ≠ .commit := fun commit => still (Course.committed_self_append.2 (.inr commit))
      rw [overlay_next_self p h client goes, m.held active, Course.changes_self_append,
        lastChange?_append]
    · obtain rfl := Side.eq_other own
      rw [overlay_next_other, Course.changes_other_append]
      exact m.held (fun done => still (Course.committed_other_append.2 done)) k
  store {client} still k := by
    by_cases own : client = side
    · subst own
      have goes : x ≠ .commit := fun commit => still (Course.committed_self_append.2 (.inr commit))
      rw [store_next p h client goes, Course.landed_other_append]
      exact m.store active k
    · obtain rfl := Side.eq_other own
      -- nothing of this client's has come to the store so far
      have before := m.store (fun done => still (Course.committed_other_append.2 done)) k
      rw [Side.other_other] at before ⊢
      by_cases commit : x = .commit
      · subst commit
        rw [get?_store_commit, m.held active, before, Course.landed_commit,
          Course.landed_of_active active]
        rfl
      · have later : ¬ Course.Committed side (steps ++ [(side, x)]) := fun done =>
          (Course.committed_self_append.1 done).elim active commit
        rw [store_next p h side commit, before, Course.landed_of_active active,
          Course.landed_of_active later]

theorem get (m : p.Midway first steps h) (active : ¬ steps.Committed side) (k : Bytes) :
    (p.layer side).get h k =
      (lastChange? k (steps.changes side)).getD
        ((lastChange? k (steps.landed side.other)).getD ((first.store p.store).get? k)) := by
  rw [← m.held active, ← m.store active]
  exact Layer.get_overlay h _ _ k

end Midway

/-- Every part of a schedule leads midway. -/
theorem midway (fresh : ∀ side, first.overlay (p.layer side) = ∅) {t : Schedule}
    {before after : Course} (cut : t.steps = before ++ after) :
    p.Midway first before (p.play first before) := by
  induction before using List.reverseRecOn generalizing after with
  | nil => exact .start fresh
  | append_singleton before s ih =>
      obtain ⟨side, x⟩ := s
      rw [List.append_assoc] at cut
      have here := (ih cut).next (Schedule.open_of_next cut) x
      rw [play, List.foldl_append]
      exact here

/-- What becomes of the changes of two clients who go by a schedule. -/
structure NoneLost (p : OverlayPair) (h : Heap) (t : Schedule) : Prop where
  /-- Before its commit, an overlay reads its client's last change of a key. Where there is none, it
  reads the last change of the other client, once that one has committed, or else what the store
  had at first. -/
  reads {before after : Course} (cut : t.steps = before ++ after) {side : Side}
    (active : ¬ before.Committed side) (k : Bytes) :
    (p.layer side).get (p.play h before) k =
      (lastChange? k (before.changes side)).getD
        (if before.Committed side.other then
          (lastChange? k (before.changes side.other)).getD ((h.store p.store).get? k)
        else (h.store p.store).get? k)
  /-- The schedule ends with a commit. -/
  ends : ∃ side, t.CommitsLast side
  /-- In the end the store has under each key the last change of the client who committed last, or
  else that of the other one, or else what it had at first. -/
  final {side : Side} (last : t.CommitsLast side) (k : Bytes) :
    ((p.play h t.steps).store p.store).get? k =
      (lastChange? k (t.steps.changes side)).getD
        ((lastChange? k (t.steps.changes side.other)).getD ((h.store p.store).get? k))
  /-- If no key was changed by both, the store has the last change under each key, -/
  whole (apart : (t.touched .left).Disjoint (t.touched .right)) {side : Side} {k : Bytes}
    {v : Option Bytes} (changed : lastChange? k (t.steps.changes side) = some v) :
    ((p.play h t.steps).store p.store).get? k = v
  /-- and the commits may come in either order, with whatever order of the steps before. -/
  commute (apart : (t.touched .left).Disjoint (t.touched .right)) (u : Schedule)
    (same : ∀ side, u.steps.own side = t.steps.own side) :
    (p.play h u.steps).store p.store = (p.play h t.steps).store p.store

theorem get?_store_last (fresh : ∀ side, first.overlay (p.layer side) = ∅) {t : Schedule}
    (last : t.CommitsLast side) (k : Bytes) :
    ((p.play first t.steps).store p.store).get? k =
      (lastChange? k (t.steps.changes side)).getD
        ((lastChange? k (t.steps.changes side.other)).getD ((first.store p.store).get? k)) := by
  obtain ⟨before, client, ends, cut, done⟩ := t.exists_last
  obtain rfl : client = side := congrArg Prod.fst (Option.some.inj (ends.symm.trans last))
  have m := midway fresh cut
  have active := Schedule.open_of_next cut
  have landed : before.landed client.other = before.changes client.other := if_pos done
  rw [cut, play, List.foldl_append]
  refine (get?_store_commit p _ client k).trans ?_
  rw [← play, m.held active, m.store active, landed, Course.changes_self_append,
    Course.changes_other_append]
  exact congrArg (fun c => (lastChange? k c).getD _) (List.append_nil _).symm

end OverlayPair

namespace Schedule

variable {t : Schedule} {k : Bytes}

theorem lastChange?_other (apart : (t.touched .left).Disjoint (t.touched .right)) {side : Side}
    {v : Option Bytes} (changed : lastChange? k (t.steps.changes side) = some v) :
    lastChange? k (t.steps.changes side.other) = none := by
  have here : k ∈ t.touched side := by
    by_contra missing
    rw [lastChange?_eq_none_iff.2 missing] at changed
    cases changed
  refine lastChange?_eq_none_iff.2 fun there => ?_
  cases side with
  | left => exact apart here there
  | right => exact apart there here

end Schedule

/-- Overlays that share a store lose no update. Whatever two clients do with overlays of their own,
and in whatever order: before its commit each of them reads its own changes over what the other one
has committed, and in the end the store has the last change of each client under each key, that of
the client who committed last if both changed it. If no key was changed by both, the order of the
commits makes no difference. -/
theorem updates_kept (p : OverlayPair) (h : Heap) (fresh : ∀ side, h.overlay (p.layer side) = ∅)
    (t : Schedule) : p.NoneLost h t where
  reads {before after} cut {side} active k := by
    rw [(OverlayPair.midway fresh cut).get active, Course.landed]
    split <;> rfl
  ends := by
    obtain ⟨-, side, last, -⟩ := t.exists_last
    exact ⟨side, last⟩
  final last k := OverlayPair.get?_store_last fresh last k
  whole apart {side k v} changed := by
    obtain ⟨-, client, last, -⟩ := t.exists_last
    rw [OverlayPair.get?_store_last fresh last]
    by_cases own : side = client
    · subst own
      rw [changed, Option.getD_some]
    · obtain rfl := Side.eq_other own
      have none := Schedule.lastChange?_other apart changed
      rw [Side.other_other] at none
      rw [none, Option.getD_none, changed, Option.getD_some]
  commute apart u same := by
    have changes (side : Side) : u.steps.changes side = t.steps.changes side :=
      congrArg (List.filterMap OverlayStep.change?) (same side)
    obtain ⟨-, client, last, -⟩ := t.exists_last
    obtain ⟨-, client', last', -⟩ := u.exists_last
    refine Table.ext_get? fun k => ?_
    rw [OverlayPair.get?_store_last fresh last, OverlayPair.get?_store_last fresh last', changes,
      changes]
    by_cases order : client' = client
    · rw [order]
    · obtain rfl := Side.eq_other order
      rw [Side.other_other]
      cases changed : lastChange? k (t.steps.changes client) with
      | none => rfl
      | some v =>
          rw [Schedule.lastChange?_other apart changed]
          rfl

namespace Sample

def twins : OverlayPair := ⟨"chain", "ours", "theirs", by decide⟩

/-- One client deletes a key and commits; then the other one looks there, and commits as well. -/
def relay : Schedule where
  steps := [(.left, .put [1, 2, 3] (some [31])), (.right, .put [4] (some [40])),
    (.left, .put [1, 2, 3] none), (.left, .commit), (.right, .get [1, 2, 3]),
    (.right, .put [4] (some [41])), (.right, .commit)]
  once
    | .left => ⟨[.put [1, 2, 3] (some [31]), .put [1, 2, 3] none], by decide, by decide⟩
    | .right => ⟨[.put [4] (some [40]), .get [1, 2, 3], .put [4] (some [41])], by decide, by decide⟩

def relayBack : Schedule where
  steps := [(.right, .put [4] (some [40])), (.right, .get [1, 2, 3]),
    (.right, .put [4] (some [41])), (.right, .commit), (.left, .put [1, 2, 3] (some [31])),
    (.left, .put [1, 2, 3] none), (.left, .commit)]
  once
    | .left => ⟨[.put [1, 2, 3] (some [31]), .put [1, 2, 3] none], by decide, by decide⟩
    | .right => ⟨[.put [4] (some [40]), .get [1, 2, 3], .put [4] (some [41])], by decide, by decide⟩

end Sample

/-- The second client sees that the key is gone, and both orders leave the same store. -/
theorem updates_kept_relay :
    (∀ side, Sample.filled.overlay (Sample.twins.layer side) = ∅) ∧
      (Sample.twins.layer .right).get
        (Sample.twins.play Sample.filled (Sample.relay.steps.take 4)) [1, 2, 3] = none ∧
      ((Sample.twins.play Sample.filled Sample.relay.steps).store "chain").get? [4] = some [41] ∧
      (Sample.twins.play Sample.filled Sample.relayBack.steps).store "chain" =
        (Sample.twins.play Sample.filled Sample.relay.steps).store "chain" := by
  have fresh (side : Side) : Sample.filled.overlay (Sample.twins.layer side) = ∅ := by
    cases side <;> decide +kernel
  have kept := updates_kept Sample.twins Sample.filled fresh Sample.relay
  have apart : (Sample.relay.touched .left).Disjoint (Sample.relay.touched .right) := by
    have away : ∀ k ∈ Sample.relay.touched .left, k ∉ Sample.relay.touched .right := by decide
    exact fun k left right => away k left right
  refine ⟨fresh, ?_, ?_, ?_⟩
  · exact (kept.reads (List.take_append_drop 4 _).symm (by decide) [1, 2, 3]).trans
      (by decide +kernel)
  · exact (kept.final rfl [4]).trans (by decide +kernel)
  · exact kept.commute apart Sample.relayBack fun side => by cases side <;> rfl

end ContractHost
