import ContractHost.Proofs.Bridge.Answer

/-!
The log of a run: what a unit asked of the bridge and of its tank, in the order
in which it happened, the requests of the units that it invoked in their place.

The log is read off the run itself, so there is no second semantics: every
entry is made at the world that the run has reached by then. `Stepwise` is the
induction that all statements about runs share. A relation between the world
before, the log and the world after that holds for each single step, and that
composes, holds for whole runs, however programs invoke one another.
-/

namespace ContractHost

inductive LogEntry where
  /-- A request that reached the bridge, the world that it found, the answer,
  and the world that it left. -/
  | request (call : Call) (found : World) (answer : Except InvokeError Bytes) (left : World)
  /-- A charge that the unit asked for itself. -/
  | charge (units : UInt64) (answer : Option (Except Gas.Refusal Unit))

namespace LogEntry

def answered? : LogEntry → Option Request
  | .request call _ (.ok _) _ => call.request?
  | _ => none

def requests (log : List LogEntry) : List Request := log.filterMap answered?

def change? (e : LogEntry) : Option Change := e.answered?.bind Request.change?

def changes (log : List LogEntry) : List Change := log.filterMap change?

theorem changes_done {call : Call} {q : Request} (made : call.request? = some q)
    (found left : World) (b : Bytes) :
    changes [.request call found (.ok b) left] = q.change?.toList := by
  cases h : q.change? <;> simp [changes, change?, answered?, made, h]

@[simp] theorem changes_append (l m : List LogEntry) : changes (l ++ m) = changes l ++ changes m :=
  List.filterMap_append

@[simp] theorem requests_append (l m : List LogEntry) :
    requests (l ++ m) = requests l ++ requests m :=
  List.filterMap_append

theorem changes_eq (log : List LogEntry) :
    changes log = (requests log).filterMap Request.change? :=
  List.filterMap_filterMap.symm

end LogEntry

/-- The log of a program, given how other units are invoked and what that logs. -/
def Program.log (invoke : Uri → Call → World → Outcome × World)
    (log : Uri → Call → World → List LogEntry) (invoker : Option TankRef) :
    Program → World → List LogEntry
  | .done _, _ => []
  | .panic _, _ => []
  | .invoke uri call next, w =>
    log uri call w ++
      match invoke uri call w with
      | (.answered result, w) => (next result).log invoke log invoker w
      | (.panicked _, _) => []
  | .charge units next, w =>
    let (answer, w) := w.chargeInvoker units invoker
    .charge units answer :: (next answer).log invoke log invoker w
  | .tank next, w => (next (invoker.map w.tank)).log invoke log invoker w
  | .note n next, w => next.log invoke log invoker (w.note n)

namespace Vm

def log (vm : Vm) (invoker : Option TankRef) : Nat → Uri → Call → World → List LogEntry
  | 0, _, _, _ => []
  | depth + 1, uri, call, w =>
    match w.resolve uri with
    | (.error _, _) => []
    | (.ok .bridge, w) =>
      let (answer, left) := Bridge.answer vm.gas.hostCosts invoker call w
      [.request call w answer left]
    | (.ok (.guest g), w) => (g call).log (vm.invoke invoker depth) (vm.log invoker depth) invoker w

def programLog (vm : Vm) (invoker : Option TankRef) (p : Program) (w : World) : List LogEntry :=
  p.log (vm.invoke invoker vm.maxNesting) (vm.log invoker vm.maxNesting) invoker w

/-- A relation between the world before, the log and the world after that every
step of a unit keeps. -/
structure Stepwise (vm : Vm) (invoker : Option TankRef)
    (R : World → List LogEntry → World → Prop) : Prop where
  refl (w : World) : R w [] w
  trans {u v w : World} {l m : List LogEntry} : R u l v → R v m w → R u (l ++ m) w
  resolve (uri : Uri) (w : World) : R w [] (w.resolve uri).2
  request {call : Call} {w w' : World} {answer : Except InvokeError Bytes} :
    Bridge.Answers vm.gas.hostCosts invoker call w answer w' →
      R w [.request call w answer w'] w'
  charge (units : UInt64) (w : World) :
    R w [.charge units (w.chargeInvoker units invoker).1] (w.chargeInvoker units invoker).2
  note (n : Note) (w : World) : R w [] (w.note n)

namespace Stepwise

variable {vm : Vm} {invoker : Option TankRef} {R : World → List LogEntry → World → Prop}

theorem run (s : Stepwise vm invoker R) {invoke : Uri → Call → World → Outcome × World}
    {log : Uri → Call → World → List LogEntry}
    (nested : ∀ uri call w, R w (log uri call w) (invoke uri call w).2) (p : Program)
    (w : World) : R w (p.log invoke log invoker w) (p.run invoke invoker w).2 := by
  induction p generalizing w with
  | done result => exact s.refl w
  | panic message => exact s.refl w
  | invoke uri call next ih =>
      have first := nested uri call w
      simp only [Program.log, Program.run]
      rcases h : invoke uri call w with ⟨result | message, w'⟩
      · rw [h] at first
        exact s.trans first (ih result w')
      · rw [h] at first
        exact s.trans first (s.refl w')
  | charge units next ih => exact s.trans (s.charge units w) (ih _ _)
  | tank next ih => exact ih _ w
  | note n next ih => exact s.trans (s.note n w) (ih _)

theorem invoke (s : Stepwise vm invoker R) (depth : Nat) (uri : Uri) (call : Call) (w : World) :
    R w (vm.log invoker depth uri call w) (vm.invoke invoker depth uri call w).2 := by
  induction depth generalizing uri call w with
  | zero => exact s.refl w
  | succ depth ih =>
      have found := s.resolve uri w
      simp only [Vm.log, Vm.invoke]
      rcases h : w.resolve uri with ⟨_ | unit, w'⟩
      · rw [h] at found
        exact found
      · rw [h] at found
        cases unit with
        | bridge => exact s.trans found (s.request (Bridge.answers _ _ _ _))
        | guest g => exact s.trans found (s.run ih (g call) w')

theorem runProgram (s : Stepwise vm invoker R) (p : Program) (w : World) :
    R w (vm.programLog invoker p w) (vm.runProgram invoker p w).2 :=
  s.run (s.invoke vm.maxNesting) p w

end Stepwise

end Vm

end ContractHost
