import ContractHost.Proofs.Gas.Tank
import ContractHost.Proofs.Resolver
import ContractHost.Proofs.Vm.Lockstep
import ContractHost.Proofs.Vm.Log

/-!
Runs of the same units with two tanks.

Units that do not look at the tank learn of it from refusals alone. A run in which
nothing was refused is therefore followed by a run with every other tank that covers
what it used (`Follows`): the tank only ever fills up, so whatever was used on the way
is covered as well (`Onward`). With another limit the run stays the same altogether
(`Vm.invoke_withLimit`).
-/

namespace ContractHost

/-- The program looks at no tank, and it invokes only certain units. -/
def Program.Blind (units : Uri → Prop) : Program → Prop
  | .done _ => True
  | .panic _ => True
  | .invoke uri _ next => units uri ∧ ∀ result, (next result).Blind units
  | .charge _ next => ∀ answer, (next answer).Blind units
  | .tank _ => False
  | .note _ next => next.Blind units

/-- The units that certain locators lead to look at no tank, and they invoke only one another. -/
def World.Blind (w : World) (units : Uri → Prop) : Prop :=
  ∀ uri, units uri → ∀ g, (w.resolve uri).1 = .ok (.guest g) → ∀ call, (g call).Blind units

/-- The entry tells of a charge that was refused, be it for a request or for the unit itself. -/
def LogEntry.IsRefusal : LogEntry → Prop
  | .request _ _ (.error (.outOfGas _)) _ => True
  | .charge _ (some (.error _)) => True
  | _ => False

namespace World

def withLimit (w : World) (limit : UInt64) : World :=
  { w with callTank := { w.callTank with limit := limit } }

/-- Nothing was refused yet, and what was used is within a limit. -/
structure Fits (w : World) (limit : UInt64) : Prop where
  admitted : w.callTank.exhausted = false
  within : w.callTank.used ≤ limit

end World

/-- The tank of the call fills up, and it is exhausted once something was refused. What locators
lead to stays the same. -/
structure Onward (w : World) (log : List LogEntry) (w' : World) : Prop where
  used : w.callTank.used ≤ w'.callTank.used
  exhausted : w'.callTank.exhausted = true ↔
    w.callTank.exhausted = true ∨ ∃ e ∈ log, e.IsRefusal
  resolve (uri : Uri) : (w'.resolve uri).1 = (w.resolve uri).1

namespace Onward

theorem of_same {w w' : World} {log : List LogEntry} (tank : w'.callTank = w.callTank)
    (none : ¬ ∃ e ∈ log, e.IsRefusal) (resolve : ∀ uri, (w'.resolve uri).1 = (w.resolve uri).1) :
    Onward w log w' where
  used := by rw [tank]; exact UInt64.le_refl _
  exhausted := by simp [tank, none]
  resolve := resolve

theorem trans {u v w : World} {l m : List LogEntry} (first : Onward u l v)
    (second : Onward v m w) : Onward u (l ++ m) w where
  used := UInt64.le_trans first.used second.used
  exhausted := by
    rw [second.exhausted, first.exhausted, or_assoc]
    refine or_congr_right ?_
    simp only [List.mem_append, or_and_right, exists_or]
  resolve uri := (second.resolve uri).trans (first.resolve uri)

theorem charged {w : World} {t : Gas.Tank} {units : UInt64} {answer : Except Gas.Refusal Unit}
    {e : LogEntry} (guards : Table GuardId Guard) (charged : w.callTank.charge units = (t, answer))
    (logged : e.IsRefusal ↔ answer ≠ .ok ()) :
    Onward w [e] { w with callTank := t, guards := guards } := by
  rcases answer with refusal | _
  · obtain ⟨rfl, -, -⟩ := Gas.Tank.charge_eq_error charged
    refine ⟨UInt64.le_refl _, ?_, fun _ => rfl⟩
    simp [logged]
  · obtain ⟨rfl, -⟩ := Gas.Tank.charge_eq_ok charged
    refine ⟨?_, ?_, fun _ => rfl⟩
    · show w.callTank.used ≤ Gas.addSat w.callTank.used units
      rw [UInt64.le_iff_toNat_le, Gas.toNat_addSat]
      have bound := w.callTank.used.toNat_lt
      omega
    · simp [logged]

theorem request {costs : Gas.Costs} {call : Call} {w w' : World}
    {answer : Except InvokeError Bytes} (a : Bridge.Answers costs (some .call) call w answer w') :
    Onward w [.request call w answer w'] w' := by
  cases a with
  | unknown noMethod => exact of_same rfl (by simp [LogEntry.IsRefusal]) fun _ => rfl
  | unbound known shut => exact of_same rfl (by simp [LogEntry.IsRefusal]) fun _ => rfl
  | malformed known bound bad =>
      exact of_same rfl (by simp [LogEntry.IsRefusal, InvokeError.malformed]) fun _ => rfl
  | refused bound made dear =>
      obtain ⟨carried, -, -⟩ := World.boundTo_eq_some_iff.1 bound
      cases carried
      exact charged w.guards dear (by simp [LogEntry.IsRefusal])
  | done bound made paid =>
      obtain ⟨carried, -, -⟩ := World.boundTo_eq_some_iff.1 bound
      cases carried
      exact charged _ paid (by simp [LogEntry.IsRefusal])

theorem charge (units : UInt64) (w : World) :
    Onward w [.charge units (w.chargeInvoker units (some .call)).1]
      (w.chargeInvoker units (some .call)).2 := by
  rw [World.chargeInvoker_call]
  rcases paid : w.callTank.charge units with ⟨t, answer⟩
  refine charged w.guards paid ?_
  cases answer <;> simp [LogEntry.IsRefusal]

theorem stepwise (vm : Vm) : vm.Stepwise (some .call) Onward where
  refl _ := of_same rfl (by simp) fun _ => rfl
  trans := trans
  resolve asked w :=
    of_same rfl (by simp) fun uri => Resolver.resolveChain_again w.resolvers asked uri
  request := request
  charge := charge
  note _ _ := of_same rfl (by simp) fun _ => rfl

/-- What fits at the end of a run has fitted all along. -/
theorem fits {w w' : World} {log : List LogEntry} (onward : Onward w log w') {limit : UInt64}
    (fits : w'.Fits limit) : w.Fits limit where
  admitted := by
    cases refused : w.callTank.exhausted with
    | false => rfl
    | true =>
        have exhausted := onward.exhausted.2 (.inl refused)
        rw [fits.admitted] at exhausted
        cases exhausted
  within := UInt64.le_trans onward.used fits.within

end Onward

namespace Vm

/-- Two runs of units that look at no tank, of which one leads and the other follows: as long as
nothing is refused to the leading one and it has used no more than `most`, the other does the same
in a world that is related to that of the first. -/
structure Follows (vm : Vm) (units : Uri → Prop) (most : UInt64) (S : World → World → Prop) :
    Prop where
  blind {u v : World} (s : S u v) {uri : Uri} (mem : units uri) {g : Guest}
    (leads : (u.resolve uri).1 = .ok (.guest g)) (call : Call) : (g call).Blind units
  resolve {u v : World} (s : S u v) {uri : Uri} (mem : units uri) :
    InStep S (u.resolve uri) (v.resolve uri)
  answer {u v : World} (s : S u v) {call : Call}
    (fits : (Bridge.answer vm.gas.hostCosts (some .call) call u).2.Fits most) :
    InStep S (Bridge.answer vm.gas.hostCosts (some .call) call u)
      (Bridge.answer vm.gas.hostCosts (some .call) call v)
  charge {u v : World} (s : S u v) {cost : UInt64}
    (fits : (u.chargeInvoker cost (some .call)).2.Fits most) :
    InStep S (u.chargeInvoker cost (some .call)) (v.chargeInvoker cost (some .call))
  note {u v : World} (s : S u v) (n : Note) : S (u.note n) (v.note n)

namespace Follows

variable {vm : Vm} {units : Uri → Prop} {most : UInt64} {S : World → World → Prop} {u v : World}

theorem run (f : vm.Follows units most S) {invoke : Uri → Call → World → Outcome × World}
    {log : Uri → Call → World → List LogEntry}
    (onward : ∀ uri call u, Onward u (log uri call u) (invoke uri call u).2)
    (nested : ∀ uri, units uri → ∀ call u v, S u v → (invoke uri call u).2.Fits most →
      InStep S (invoke uri call u) (invoke uri call v))
    {p : Program} (blind : p.Blind units) (s : S u v)
    (fits : (p.run invoke (some .call) u).2.Fits most) :
    InStep S (p.run invoke (some .call) u) (p.run invoke (some .call) v) := by
  -- what fits when the program is over has fitted at each of its steps
  have later (p : Program) (u : World) (fits : (p.run invoke (some .call) u).2.Fits most) :
      u.Fits most := ((Onward.stepwise vm).run onward p u).fits fits
  induction p generalizing u v with
  | done result => exact ⟨rfl, s⟩
  | panic message => exact ⟨rfl, s⟩
  | invoke uri call next ih =>
      have first := nested uri blind.1 call u v s
      simp only [Program.run] at fits ⊢
      rcases ran : invoke uri call u with ⟨result | message, u'⟩
      · rw [ran] at first fits
        obtain ⟨_, _, v', ⟨⟩, followed, related⟩ := (first (later _ _ fits)).split
        rw [followed]
        exact ih result (blind.2 result) related fits
      · rw [ran] at first fits
        obtain ⟨_, _, v', ⟨⟩, followed, related⟩ := (first fits).split
        rw [followed]
        exact ⟨rfl, related⟩
  | charge cost next ih =>
      simp only [Program.run] at fits ⊢
      obtain ⟨answer, u', v', hu, hv, related⟩ := (f.charge s (later _ _ fits)).split
      rw [hu] at fits
      rw [hu, hv]
      exact ih answer (blind answer) related fits
  | tank next ih => exact blind.elim
  | note n next ih => exact ih (u := u.note n) blind (f.note s n) fits

theorem invoke (f : vm.Follows units most S) (depth : Nat) {uri : Uri} (mem : units uri)
    {call : Call} (s : S u v) (fits : (vm.invoke (some .call) depth uri call u).2.Fits most) :
    InStep S (vm.invoke (some .call) depth uri call u)
      (vm.invoke (some .call) depth uri call v) := by
  induction depth generalizing uri call u v with
  | zero => exact ⟨rfl, s⟩
  | succ depth ih =>
      have blind := @f.blind u v s uri mem
      obtain ⟨unit, u', v', hu, hv, related⟩ := (f.resolve s mem).split
      simp only [Vm.invoke, hu, hv] at fits blind ⊢
      rcases unit with e | _ | g
      · exact ⟨rfl, related⟩
      · have answered := f.answer related fits
        exact ⟨congrArg Outcome.answered answered.same, answered.worlds⟩
      · exact f.run ((Onward.stepwise vm).invoke depth)
          (fun uri mem call u v s fits => ih mem s fits) (blind rfl call) related fits

end Follows

variable {vm : Vm} {w u : World} {limit : UInt64} {units : Uri → Prop}

theorem charge_withLimit {tank t : Gas.Tank} {cost : UInt64} (paid : tank.charge cost = (t, .ok ()))
    (within : t.used ≤ limit) :
    Gas.Tank.charge { tank with limit := limit } cost = ({ t with limit := limit }, .ok ()) := by
  obtain ⟨rfl, -⟩ := Gas.Tank.charge_eq_ok paid
  simp only [Gas.Tank.charge]
  exact if_pos within

theorem answer_withLimit {call : Call} {u' : World} {answer : Except InvokeError Bytes}
    (a : Bridge.Answers vm.gas.hostCosts (some .call) call u answer u') (fits : u'.Fits limit) :
    Bridge.answer vm.gas.hostCosts (some .call) call (u.withLimit limit) =
      (answer, u'.withLimit limit) := by
  refine Bridge.Answers.eq ?_
  cases a with
  | unknown noMethod => exact .unknown noMethod
  | unbound known shut => exact .unbound known shut
  | malformed known bound bad => exact .malformed known bound bad
  | refused bound made dear =>
      obtain ⟨carried, -, -⟩ := World.boundTo_eq_some_iff.1 bound
      cases carried
      obtain ⟨rfl, -, -⟩ := Gas.Tank.charge_eq_error dear
      cases fits.admitted
  | done bound made paid =>
      obtain ⟨carried, -, -⟩ := World.boundTo_eq_some_iff.1 bound
      cases carried
      have reached : (u.withLimit limit).boundTo (some .call) = _ := bound
      have paid : ((u.withLimit limit).tank .call).charge _ = _ :=
        charge_withLimit paid fits.within
      exact Bridge.Answers.done reached made paid

/-- A run is followed by the same run with another limit. -/
theorem follows_withLimit (vm : Vm) (blind : w.Blind units) (limit : UInt64) :
    vm.Follows units limit fun u v =>
      v = u.withLimit limit ∧ ∀ uri, (u.resolve uri).1 = (w.resolve uri).1 where
  blind s _ mem _ leads := blind _ mem _ ((s.2 _).symm.trans leads)
  resolve := by
    rintro u - ⟨rfl, same⟩ uri mem
    have kept := (Onward.stepwise vm).resolve uri u
    exact ⟨rfl, rfl, fun uri => (kept.resolve uri).trans (same uri)⟩
  answer := by
    rintro u - ⟨rfl, same⟩ call fits
    have answers := Bridge.answers vm.gas.hostCosts (some .call) call u
    have kept := Onward.request answers
    rw [answer_withLimit answers fits]
    exact ⟨rfl, rfl, fun uri => (kept.resolve uri).trans (same uri)⟩
  charge := by
    rintro u - ⟨rfl, same⟩ cost fits
    rw [World.chargeInvoker_call] at fits ⊢
    rw [World.chargeInvoker_call]
    rcases charged : u.callTank.charge cost with ⟨t, refusal | _⟩
    · rw [charged] at fits
      obtain ⟨rfl, -, -⟩ := Gas.Tank.charge_eq_error charged
      cases fits.admitted
    · rw [charged] at fits
      have paid : (u.withLimit limit).callTank.charge cost = _ := charge_withLimit charged fits.within
      rw [paid]
      exact ⟨rfl, rfl, same⟩
  note := by
    rintro u - ⟨rfl, same⟩ n
    exact ⟨rfl, same⟩

/-- An invocation in which nothing was refused goes the same way under every limit that covers what
was used. -/
theorem invoke_withLimit (vm : Vm) (blind : w.Blind units) (depth : Nat) {uri : Uri}
    (mem : units uri) {call : Call} (same : ∀ uri, (u.resolve uri).1 = (w.resolve uri).1)
    (fits : (vm.invoke (some .call) depth uri call u).2.Fits limit) :
    vm.invoke (some .call) depth uri call (u.withLimit limit) =
      ((vm.invoke (some .call) depth uri call u).1,
        (vm.invoke (some .call) depth uri call u).2.withLimit limit) := by
  have followed := (vm.follows_withLimit blind limit).invoke depth mem ⟨rfl, same⟩ fits
  exact Prod.ext followed.same.symm followed.worlds.1

end Vm

end ContractHost
