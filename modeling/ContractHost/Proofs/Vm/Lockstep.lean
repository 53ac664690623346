import ContractHost.Proofs.Vm.World

/-!
Two runs of the same units, side by side.

A relation between worlds is a lockstep if every single step of a unit, made in
two related worlds, gives the same answer and leaves related worlds. Whole runs
then do the same, however programs choose their steps by the answers they get
and however they invoke one another. What a unit could learn from a world is
therefore in the relation or nowhere.
-/

namespace ContractHost

/-- Two results are the same, and the worlds that come with them are related. -/
structure InStep {α : Type} (S : World → World → Prop) (x y : α × World) : Prop where
  same : x.1 = y.1
  worlds : S x.2 y.2

theorem InStep.split {α : Type} {S : World → World → Prop} {x y : α × World} (h : InStep S x y) :
    ∃ a u v, x = (a, u) ∧ y = (a, v) ∧ S u v := by
  obtain ⟨a, u⟩ := x
  obtain ⟨b, v⟩ := y
  obtain ⟨rfl : a = b, related⟩ := h
  exact ⟨a, u, v, rfl, rfl, related⟩

namespace Vm

/-- A relation between two worlds that no step of a unit can tell apart, and that
every step keeps. -/
structure Lockstep (vm : Vm) (invoker : Option TankRef) (S : World → World → Prop) : Prop where
  resolve {u v : World} (s : S u v) (uri : Uri) : InStep S (u.resolve uri) (v.resolve uri)
  answer {u v : World} (s : S u v) (call : Call) :
    InStep S (Bridge.answer vm.gas.hostCosts invoker call u)
      (Bridge.answer vm.gas.hostCosts invoker call v)
  charge {u v : World} (s : S u v) (units : UInt64) :
    InStep S (u.chargeInvoker units invoker) (v.chargeInvoker units invoker)
  tank {u v : World} (s : S u v) : invoker.map u.tank = invoker.map v.tank
  note {u v : World} (s : S u v) (n : Note) : S (u.note n) (v.note n)

namespace Lockstep

variable {vm : Vm} {invoker : Option TankRef} {S : World → World → Prop} {u v : World}

/-- A program runs in lockstep if the invocations that it makes do. -/
theorem run (l : Lockstep vm invoker S) {invoke : Uri → Call → World → Outcome × World}
    (nested : ∀ uri call u v, S u v → InStep S (invoke uri call u) (invoke uri call v))
    (p : Program) (s : S u v) : InStep S (p.run invoke invoker u) (p.run invoke invoker v) := by
  induction p generalizing u v with
  | done result => exact ⟨rfl, s⟩
  | panic message => exact ⟨rfl, s⟩
  | invoke uri call next ih =>
      obtain ⟨outcome, u', v', hu, hv, related⟩ := (nested uri call u v s).split
      simp only [Program.run, hu, hv]
      cases outcome with
      | answered result => exact ih result related
      | panicked message => exact ⟨rfl, related⟩
  | charge units next ih =>
      obtain ⟨answer, u', v', hu, hv, related⟩ := (l.charge s units).split
      simp only [Program.run, hu, hv]
      exact ih answer related
  | tank next ih =>
      simp only [Program.run, l.tank s]
      exact ih _ s
  | note n next ih => exact ih (l.note s n)

theorem invoke (l : Lockstep vm invoker S) (depth : Nat) (uri : Uri) (call : Call) (s : S u v) :
    InStep S (vm.invoke invoker depth uri call u) (vm.invoke invoker depth uri call v) := by
  induction depth generalizing uri call u v with
  | zero => exact ⟨rfl, s⟩
  | succ depth ih =>
      obtain ⟨unit, u', v', hu, hv, related⟩ := (l.resolve s uri).split
      simp only [Vm.invoke, hu, hv]
      rcases unit with e | _ | g
      · exact ⟨rfl, related⟩
      · have answered := l.answer related call
        exact ⟨congrArg Outcome.answered answered.same, answered.worlds⟩
      · exact l.run (fun uri call u v s => ih uri call s) (g call) related

theorem runProgram (l : Lockstep vm invoker S) (p : Program) (s : S u v) :
    InStep S (vm.runProgram invoker p u) (vm.runProgram invoker p v) :=
  l.run (fun uri call _ _ s => l.invoke vm.maxNesting uri call s) p s

end Lockstep

end Vm

end ContractHost
