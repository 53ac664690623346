import ContractHost.Proofs.State.Layer
import ContractHost.Proofs.Vm.Stages

/-!
What a run does to the state of the host: it reaches no store. The changes that
the bridge made on its behalf are gathered, in their order, in the one guard that
its invoker may use, and an invoker that may use none makes no change at all.
-/

namespace ContractHost

namespace World

/-- The guards after changes that an invoker made. -/
def guardsAfter (w : World) (invoker : Option TankRef) (changes : List Change) :
    Table GuardId Guard :=
  match w.boundTo invoker with
  | some (_, g, guard) => w.guards.insert g (guard.applyAll changes)
  | none => w.guards

theorem guardsAfter_of_bound {w : World} {invoker : Option TankRef} {r : TankRef} {g : GuardId}
    {guard : Guard} (bound : w.boundTo invoker = some (r, g, guard)) (changes : List Change) :
    w.guardsAfter invoker changes = w.guards.insert g (guard.applyAll changes) := by
  simp [guardsAfter, bound]

theorem guardsAfter_of_shut {w : World} {invoker : Option TankRef}
    (shut : w.boundTo invoker = none) (changes : List Change) :
    w.guardsAfter invoker changes = w.guards := by
  simp [guardsAfter, shut]

@[simp] theorem guardsAfter_nil (w : World) (invoker : Option TankRef) :
    w.guardsAfter invoker [] = w.guards := by
  unfold guardsAfter
  split
  · next bound => exact Table.insert_of_get? (boundTo_eq_some_iff.1 bound).2.2
  · rfl

theorem boundTo_congr {v w : World} (binding : v.binding = w.binding)
    (guards : v.guards = w.guards) (invoker : Option TankRef) :
    v.boundTo invoker = w.boundTo invoker := by
  unfold boundTo
  rw [binding, guards]

/-- The guard that an invoker may use is the one that its changes have gone to. -/
theorem boundTo_after {v w : World} {invoker : Option TankRef} {changes : List Change}
    (binding : v.binding = w.binding) (guards : v.guards = w.guardsAfter invoker changes) :
    v.boundTo invoker =
      (w.boundTo invoker).map fun (r, g, guard) => (r, g, guard.applyAll changes) := by
  cases bound : w.boundTo invoker with
  | none =>
      rw [guardsAfter_of_shut bound] at guards
      rw [boundTo_congr binding guards, bound]
      rfl
  | some reached =>
      obtain ⟨r, g, guard⟩ := reached
      obtain ⟨carried, opened, live⟩ := boundTo_eq_some_iff.1 bound
      rw [guardsAfter_of_bound bound] at guards
      refine boundTo_eq_some_iff.2 ⟨carried, binding.trans opened, ?_⟩
      rw [guards, Table.get?_insert_self]

end World

/-- A run of an invoker's units went from one world to another, and all that it
did to the state was to make the changes in its log. -/
structure Wrote (invoker : Option TankRef) (w : World) (log : List LogEntry) (w' : World) :
    Prop where
  heap : w'.heap = w.heap
  binding : w'.binding = w.binding
  guards : w'.guards = w.guardsAfter invoker (LogEntry.changes log)
  shut : w.boundTo invoker = none → LogEntry.changes log = []

namespace Wrote

variable {invoker : Option TankRef}

theorem of_same {w w' : World} {log : List LogEntry} (heap : w'.heap = w.heap)
    (binding : w'.binding = w.binding) (guards : w'.guards = w.guards)
    (none : LogEntry.changes log = []) : Wrote invoker w log w' where
  heap := heap
  binding := binding
  guards := by rw [none, World.guardsAfter_nil, guards]
  shut _ := none

theorem trans {u v w : World} {l m : List LogEntry} (first : Wrote invoker u l v)
    (second : Wrote invoker v m w) : Wrote invoker u (l ++ m) w where
  heap := second.heap.trans first.heap
  binding := second.binding.trans first.binding
  guards := by
    have bound := World.boundTo_after first.binding first.guards
    rw [second.guards, LogEntry.changes_append]
    cases reached : u.boundTo invoker with
    | none =>
        rw [reached] at bound
        rw [World.guardsAfter_of_shut bound, World.guardsAfter_of_shut reached, first.guards,
          World.guardsAfter_of_shut reached]
    | some reached' =>
        obtain ⟨r, g, guard⟩ := reached'
        rw [reached] at bound
        rw [World.guardsAfter_of_bound bound, World.guardsAfter_of_bound reached, first.guards,
          World.guardsAfter_of_bound reached, Table.insert_insert_self, Guard.applyAll_append]
  shut := by
    intro shut
    have bound := World.boundTo_after first.binding first.guards
    rw [shut] at bound
    rw [LogEntry.changes_append, first.shut shut, second.shut bound, List.nil_append]

/-- A request changes nothing but the guard to which it goes. -/
theorem request {costs : Gas.Costs} {call : Call} {w w' : World}
    {answer : Except InvokeError Bytes} (a : Bridge.Answers costs invoker call w answer w') :
    Wrote invoker w [.request call w answer w'] w' := by
  cases a with
  | unknown noMethod => exact .of_same rfl rfl rfl rfl
  | unbound known shut => exact .of_same rfl rfl rfl rfl
  | malformed known bound bad => exact .of_same rfl rfl rfl rfl
  | refused bound made dear => exact .of_same (by simp) (by simp) (by simp) rfl
  | done bound made paid =>
      refine ⟨by simp [World.setGuard], by simp [World.setGuard], ?_, fun shut => ?_⟩
      · rw [LogEntry.changes_done made, World.guardsAfter_of_bound bound, Guard.apply_eq_applyAll]
        simp [World.setGuard]
      · rw [shut] at bound
        cases bound

theorem stepwise (vm : Vm) (invoker : Option TankRef) :
    vm.Stepwise invoker (Wrote invoker) where
  refl _ := .of_same rfl rfl rfl rfl
  trans := trans
  resolve _ _ := .of_same rfl rfl rfl rfl
  request := request
  charge units w := by
    cases invoker with
    | none => exact .of_same rfl rfl rfl rfl
    | some r =>
        exact .of_same (World.heap_setTank ..) (World.binding_setTank ..) (World.guards_setTank ..)
          rfl
  note _ _ := .of_same rfl rfl rfl rfl

end Wrote

/-- Since a world a guard with a scope came into being, which is no other that
was live, and has gathered changes; that is all that happened to the state. -/
structure Gathered (w : World) (scope : Layer) (g : GuardId) (changes : List Change) (w' : World) :
    Prop where
  heap : w'.heap = w.heap
  fresh : w.guards.get? g = none
  guards : w'.guards = w.guards.insert g (Guard.applyAll ⟨scope, ∅⟩ changes)

namespace Gathered

variable {w v w' : World} {scope : Layer} {g : GuardId} {changes : List Change}

/-- What units do that are run with a tank gathers in a guard that was just bound
to that tank. -/
theorem of_wrote {r : TankRef} {log : List LogEntry} (heap : v.heap = w.heap)
    (binding : v.binding = some ⟨r, w.freshGuard⟩)
    (guards : v.guards = w.guards.insert w.freshGuard ⟨scope, ∅⟩)
    (wrote : Wrote (some r) v log w') :
    Gathered w scope w.freshGuard (LogEntry.changes log) w' where
  heap := wrote.heap.trans heap
  fresh := w.get?_freshGuard
  guards := by
    have bound : v.boundTo (some r) = some (r, w.freshGuard, ⟨scope, ∅⟩) :=
      World.boundTo_eq_some_iff.2 ⟨rfl, binding, guards ▸ Table.get?_insert_self _ _ _⟩
    rw [wrote.guards, World.guardsAfter_of_bound bound, guards, Table.insert_insert_self]

theorem charged (h : Gathered w scope g changes w') (t : Gas.Tank) :
    Gathered w scope g changes { w' with callTank := t } where
  heap := h.heap
  fresh := h.fresh
  guards := h.guards

theorem release (h : Gathered w scope g changes w') :
    (w'.release g).binding = none ∧ (w'.release g).guards = w.guards ∧
      (w'.release g).heap = w.heap := by
  rw [World.release_of_live (h.guards ▸ Table.get?_insert_self _ _ _)]
  refine ⟨rfl, ?_, h.heap⟩
  exact h.guards ▸ Table.erase_insert _ h.fresh

theorem commit (h : Gathered w scope g changes w') :
    (w'.commit g).binding = none ∧ (w'.commit g).guards = w.guards ∧
      (w'.commit g).heap = scope.putAll w.heap changes := by
  rw [World.commit_of_live (h.guards ▸ Table.get?_insert_self _ _ _)]
  refine ⟨rfl, ?_, ?_⟩
  · exact h.guards ▸ Table.erase_insert _ h.fresh
  · exact (scope.putAll_gathered w'.heap ∅ changes).trans (by rw [h.heap]; rfl)

end Gathered

end ContractHost
