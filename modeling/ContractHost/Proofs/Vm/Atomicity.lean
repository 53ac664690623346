import ContractHost.Guest.Request
import ContractHost.Proofs.Vm.Writes
import Mathlib.Control.Monad.Basic

/-!
Calls are all or nothing. A call that fails, at whatever stage and for whatever
reason, leaves the heap as it was. A call that succeeds leaves the heap that its
answered requests would have left if each had been made on the scope itself, at
once and in the order of the log. Either way nothing is bound afterwards.
-/

namespace ContractHost

namespace Vm

variable {vm : Vm} {r : CallRequest} {w v w' : World} {call : Call} {g : GuardId}
  {outcome : Outcome}

/-- Once the unit of a call has run, all that happened to the state is that the
guard of the call has gathered its changes. -/
theorem gathered_of_ran (ready : vm.prepare r (r.start w) = (.ok (call, g), v))
    (ran : vm.invoke (some .call) vm.maxNesting (Uri.store r.checksum) call v = (outcome, w')) :
    Gathered (r.start w) r.scope g (LogEntry.changes (vm.callLog r w)) w' := by
  have wrote := (Wrote.stepwise vm (some .call)).invoke vm.maxNesting (Uri.store r.checksum) call v
  rw [ran, ← callLog_of_ready ready] at wrote
  have start := vm.prepared r (r.start w)
  rw [ready] at start
  cases start with
  | ready decoded paid free =>
      refine Gathered.of_wrote ?_ ?_ ?_ wrote
      all_goals rfl

/-- The heap that a call leaves: the old one if it fails, and the old one with
the changes of its log if it succeeds. -/
theorem perform_heap (vm : Vm) (r : CallRequest) (free : w.binding = none) :
    (vm.perform r (r.start w)).2.binding = none ∧
      (vm.perform r (r.start w)).2.guards = w.guards ∧
      (vm.perform r (r.start w)).2.heap =
        match (vm.perform r (r.start w)).1 with
        | .ok _ => r.scope.putAll w.heap (LogEntry.changes (vm.callLog r w))
        | .error _ => w.heap := by
  have stages := vm.performed r (r.start w)
  generalize (vm.perform r (r.start w)).1 = result at stages
  generalize (vm.perform r (r.start w)).2 = last at stages
  cases stages with
  | unprepared early =>
      have start := vm.prepared r (r.start w)
      rw [early] at start
      cases start with
      | noMessage bad => exact ⟨free, rfl, rfl⟩
      | unpaid decoded dear => exact ⟨free, rfl, rfl⟩
      | alreadyBound decoded paid bound => exact absurd (free.symm.trans bound) nofun
  | failed ready ran bad => exact (gathered_of_ran ready ran).release
  | unpaid ready ran dear => exact ((gathered_of_ran ready ran).charged _).release
  | noResponse ready ran paid bad => exact ((gathered_of_ran ready ran).charged _).release
  | done ready ran paid read => exact ((gathered_of_ran ready ran).charged _).commit

/-- A call is all or nothing. If it fails, the scope holds what it held before;
if it succeeds, the scope holds what it held before with every change made that
the bridge answered during the call, at whatever depth and in the order in which
that happened. The heap as a whole says the same, and nothing stays bound. -/
theorem call_all_or_nothing (vm : Vm) (entry : Entry) (r : CallRequest) (w : World)
    (free : w.binding = none) :
    let changes := LogEntry.changes (vm.callLog (entry.request r) w)
    let after := (vm.enter entry r w).2
    (after.binding = none ∧ after.guards = w.guards) ∧
      (∀ failure, (vm.enter entry r w).1 = .error failure →
        r.scope.get after.heap = r.scope.get w.heap ∧ after.heap = w.heap) ∧
      (∀ answer, (vm.enter entry r w).1 = .ok answer →
        r.scope.get after.heap = valuesAfter (r.scope.get w.heap) changes ∧
          after.heap = r.scope.putAll w.heap changes) := by
  obtain ⟨unbound, guards, heap⟩ := perform_heap vm (entry.request r) free
  rw [enter_eq_call, call_fst, call_snd]
  refine ⟨⟨unbound, guards⟩, fun failure failed => ?_, fun answer answered => ?_⟩
  · cases result : (vm.perform (entry.request r) ((entry.request r).start w)).1 with
    | error e =>
        rw [result] at heap
        exact ⟨by rw [heap], heap⟩
    | ok response =>
        rw [result] at failed
        cases failed
  · cases result : (vm.perform (entry.request r) ((entry.request r).start w)).1 with
    | error e =>
        rw [result] at answered
        cases answered
    | ok response =>
        rw [result, entry.scope_request] at heap
        exact ⟨by rw [heap, Layer.get_putAll], heap⟩

def stateLog (vm : Vm) (scope : Layer) (p : Program) (w : World) : List LogEntry :=
  match World.bind { w with callTank := .new Gas.greatest 0 } scope .call with
  | .error _ => []
  | .ok (_, w) => vm.programLog (some .call) p w

abbrev stateStart (scope : Layer) (w : World) : World := w.opened scope (.new Gas.greatest 0)

theorem withState_of_free (vm : Vm) (scope : Layer) (p : Program) (free : w.binding = none) :
    vm.withState scope p w =
      match vm.runProgram (some .call) p (stateStart scope w) with
      | (.panicked message, w') => (.panicked message, w'.release w.freshGuard)
      | (.answered (.error e), w') => (.finished (.error (.ofInvoke e)), w'.release w.freshGuard)
      | (.answered (.ok result), w') => (.finished (.ok result), w'.commit w.freshGuard) := by
  unfold withState
  rw [World.bind_of_free]
  · rfl
  · exact free

theorem stateLog_of_free (vm : Vm) (scope : Layer) (p : Program) (free : w.binding = none) :
    vm.stateLog scope p w = vm.programLog (some .call) p (stateStart scope w) := by
  unfold stateLog
  rw [World.bind_of_free]
  · rfl
  · exact free

/-- The heap that such a program leaves: the old one with the changes of its log
if it succeeds, and the old one if it fails or breaks down. -/
theorem withState_heap (vm : Vm) (scope : Layer) (p : Program) (free : w.binding = none) :
    (vm.withState scope p w).2.binding = none ∧ (vm.withState scope p w).2.guards = w.guards ∧
      (vm.withState scope p w).2.heap =
        match (vm.withState scope p w).1 with
        | .finished (.ok _) => scope.putAll w.heap (LogEntry.changes (vm.stateLog scope p w))
        | _ => w.heap := by
  have gathered : Gathered w scope w.freshGuard
      (LogEntry.changes (vm.programLog (some .call) p (stateStart scope w)))
      (vm.runProgram (some .call) p (stateStart scope w)).2 := by
    refine Gathered.of_wrote ?_ ?_ ?_
      ((Wrote.stepwise vm (some .call)).runProgram p (stateStart scope w))
    all_goals rfl
  rw [withState_of_free vm scope p free, stateLog_of_free vm scope p free]
  generalize vm.runProgram (some .call) p (stateStart scope w) = ran at gathered ⊢
  obtain ⟨(e | result) | message, w'⟩ := ran
  · exact gathered.release
  · exact gathered.commit
  · exact gathered.release

end Vm

namespace Sample

def failing : Guest := fun _ => Guest.set [2] [20] fun _ => .fail (.guest "out of order")

/-- A unit that makes a write, invokes the failing one, and makes nothing of its
failure. -/
def tolerant : Guest := fun _ =>
  Guest.set [1] [10] fun _ =>
    .invoke (Uri.host "failing") ⟨"run", [], none⟩ fun _ => .give Response.blank

def code : Checksum := ⟨List.replicate 32 0, rfl⟩

def host : Vm where
  gas := ⟨100, 10, 1⟩
  store := ⟨Path.ofText "data"⟩
  maxNesting := 3

def world : World :=
  World.initial (Disk.blank []) .empty
    [.named Uri.hostAuthority
        (Table.ofList [("failing", .guest failing), (Bridge.unitName, .bridge)]),
      .named Uri.storeAuthority (Table.ofList [(code.toHex, .guest tolerant)])]

def request : CallRequest where
  checksum := code
  env := Env.blank
  info := MessageInfo.blank
  msg := []
  method := "run"
  scope := .prefixed [7] (.memory "chain")
  meter := 0
  limit := 1000
  rate := Gas.Rate.zero

end Sample

/-- The write of a unit whose failure was swallowed is made with the call. -/
theorem call_all_or_nothing_swallowed :
    Sample.world.binding = none ∧
      (Sample.host.enter .execute Sample.request Sample.world).1 = .ok (Response.blank, 124) ∧
      Sample.request.scope.get (Sample.host.enter .execute Sample.request Sample.world).2.heap =
        valuesAfter (Sample.request.scope.get Sample.world.heap)
          [([1], some [10]), ([2], some [20])] := by
  have answered : (Sample.host.enter .execute Sample.request Sample.world).1 =
      .ok (Response.blank, 124) := by decide +kernel
  have changes : LogEntry.changes (Sample.host.callLog Sample.request Sample.world) =
      [([1], some [10]), ([2], some [20])] := by decide +kernel
  refine ⟨rfl, answered, ?_⟩
  rw [← changes]
  exact ((Vm.call_all_or_nothing Sample.host .execute Sample.request Sample.world rfl).2.2 _
    answered).1

end ContractHost
