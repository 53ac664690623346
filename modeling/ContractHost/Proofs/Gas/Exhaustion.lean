import ContractHost.Proofs.Gas.Threshold

/-!
What a call reports that ran out of gas.

A tank remembers that it refused a charge, whatever the units make of the refusal, and the failure
of a unit is reported by that memory. So almost every failing call in which a charge was refused
says that gas ran out (`Vm.refusal_reported`). One exit does not look at the memory: the result of
a unit that is paid for but is no response. There the refusal goes unreported
(`Vm.refusal_unreported`).
-/

namespace ContractHost

namespace Vm

/-- A charge to the tank of the call was refused: the base charge, a charge that was made while the
unit ran, or the price of the result. -/
inductive Refused (vm : Vm) (r : CallRequest) (w : World) : Prop
  | base {args : Bytes} {t : Gas.Tank} {refusal : Gas.Refusal}
      (decoded : Message.decode r.msg = .ok args)
      (dear : (Gas.Tank.new r.limit r.meter).charge vm.gas.invokeBase = (t, .error refusal))
  | running {e : LogEntry} (mem : e ∈ vm.callLog r w) (refusal : e.IsRefusal)
  | result {call : Call} {g : GuardId} {v w' : World} {raw : Bytes} {t : Gas.Tank}
      {refusal : Gas.Refusal} (ran : Ran vm r w call g v (.answered (.ok raw)) w')
      (dear : w'.callTank.charge (r.rate.mulFloor (UInt64.ofNat raw.length)) =
        (t, .error refusal))

/-- The unit of a call gave a result that was paid for, and that is no response. -/
inductive Garbled (vm : Vm) (r : CallRequest) (w : World) : Prop
  | intro {call : Call} {g : GuardId} {v w' : World} {raw : Bytes} {t : Gas.Tank}
      (ran : Ran vm r w call g v (.answered (.ok raw)) w')
      (paid : w'.callTank.charge (r.rate.mulFloor (UInt64.ofNat raw.length)) = (t, .ok ()))
      (bad : Wire.ofMsgpack? (α := Response) raw = none)

variable {vm : Vm} {r : CallRequest} {w v w' : World} {call : Call} {g : GuardId}
  {outcome : Outcome}

/-- Once the unit has run, the tank remembers what the log tells. -/
theorem Ran.exhausted_iff (h : Ran vm r w call g v outcome w') :
    w'.callTank.exhausted = true ↔ ∃ e ∈ vm.callLog r w, e.IsRefusal := by
  rw [h.onward.exhausted, h.start.1]
  simp

theorem exhausted_of_paid {tank t : Gas.Tank} {cost : UInt64}
    (paid : tank.charge cost = (t, .ok ())) : t.exhausted = tank.exhausted := by
  obtain ⟨rfl, -⟩ := Gas.Tank.charge_eq_ok paid
  rfl

theorem exhausted_of_refused {tank t : Gas.Tank} {cost : UInt64} {refusal : Gas.Refusal}
    (dear : tank.charge cost = (t, .error refusal)) : t.exhausted = true := by
  obtain ⟨rfl, -⟩ := Gas.Tank.charge_eq_error dear
  rfl

theorem refused_of_exhausted
    (exhausted : (vm.perform r (r.start w)).2.callTank.exhausted = true) : vm.Refused r w := by
  have stages := vm.performed r (r.start w)
  generalize (vm.perform r (r.start w)).1 = result at stages
  generalize (vm.perform r (r.start w)).2 = last at stages exhausted
  cases stages with
  | unprepared early =>
      have start := vm.prepared r (r.start w)
      rw [early] at start
      cases start with
      | noMessage bad => exact absurd exhausted Bool.false_ne_true
      | unpaid decoded dear => exact .base decoded dear
      | alreadyBound decoded paid bound =>
          rw [exhausted_of_paid paid] at exhausted
          exact absurd exhausted Bool.false_ne_true
  | failed ready ran bad =>
      rw [World.callTank_release] at exhausted
      obtain ⟨e, mem, refusal⟩ := (Ran.mk ready ran).exhausted_iff.1 exhausted
      exact .running mem refusal
  | unpaid ready ran dear => exact .result ⟨ready, ran⟩ dear
  | noResponse ready ran paid bad =>
      rw [World.callTank_release, exhausted_of_paid paid] at exhausted
      obtain ⟨e, mem, refusal⟩ := (Ran.mk ready ran).exhausted_iff.1 exhausted
      exact .running mem refusal
  | done ready ran paid read =>
      rw [World.callTank_commit, exhausted_of_paid paid] at exhausted
      obtain ⟨e, mem, refusal⟩ := (Ran.mk ready ran).exhausted_iff.1 exhausted
      exact .running mem refusal

theorem Refused.exhausted (refused : vm.Refused r w) :
    (vm.perform r (r.start w)).2.callTank.exhausted = true := by
  cases refused with
  | base decoded dear =>
      have dear' : ((r.start w).tank .call).charge vm.gas.invokeBase = _ := dear
      simp only [perform, prepare, decoded, World.charge_of_error dear']
      exact exhausted_of_refused dear
  | running mem refusal =>
      have stages := vm.performed r (r.start w)
      generalize (vm.perform r (r.start w)).1 = result at stages
      generalize (vm.perform r (r.start w)).2 = last at stages ⊢
      cases stages with
      | unprepared early =>
          rw [callLog_of_early early] at mem
          exact absurd mem List.not_mem_nil
      | failed ready ran bad =>
          rw [World.callTank_release]
          exact (Ran.mk ready ran).exhausted_iff.2 ⟨_, mem, refusal⟩
      | unpaid ready ran dear =>
          rw [World.callTank_release]
          exact exhausted_of_refused dear
      | noResponse ready ran paid bad =>
          rw [World.callTank_release, exhausted_of_paid paid]
          exact (Ran.mk ready ran).exhausted_iff.2 ⟨_, mem, refusal⟩
      | done ready ran paid read =>
          rw [World.callTank_commit, exhausted_of_paid paid]
          exact (Ran.mk ready ran).exhausted_iff.2 ⟨_, mem, refusal⟩
  | @result _ _ _ w' _ _ _ ran dear =>
      have dear' : (w'.tank .call).charge _ = _ := dear
      simp only [perform, ran.ready, ran.ran, contain, conclude, World.charge_of_error dear']
      rw [World.callTank_release]
      exact exhausted_of_refused dear

/-- The tank of a call that is over remembers exactly whether a charge was refused. -/
theorem exhausted_iff_refused :
    (vm.perform r (r.start w)).2.callTank.exhausted = true ↔ vm.Refused r w :=
  ⟨refused_of_exhausted, Refused.exhausted⟩

theorem perform_of_garbled (garbled : vm.Garbled r w) :
    (vm.perform r (r.start w)).1 = .error (.ofInvoke .malformed) := by
  obtain ⟨ran, paid, bad⟩ := garbled
  simp only [perform, ran.ready, ran.ran, contain, conclude, World.charge_of_ok (r := .call) paid,
    bad]

/-- How a failing call reports that a charge was refused in it, be it one that a unit made nothing
of: as want of gas, unless the unit still gave a result that was paid for and is no response. Such
a result is reported as malformed. -/
theorem refusal_reported (vm : Vm) (entry : Entry) (r : CallRequest) (w : World)
    {failure : CallFailure} (failed : (vm.enter entry r w).1 = .error failure)
    (refused : vm.Refused (entry.request r) w) :
    (¬ vm.Garbled (entry.request r) w → ∃ reason, failure.error = .insufficientGas reason) ∧
      (vm.Garbled (entry.request r) w → failure.error = .ofInvoke .malformed) := by
  rw [enter_eq_call, call_fst] at failed
  generalize entry.request r = r at failed refused ⊢
  have exhausted := refused.exhausted
  refine ⟨fun sound => ?_, fun garbled => ?_⟩
  · have stages := vm.performed r (r.start w)
    generalize (vm.perform r (r.start w)).1 = result at stages failed
    generalize (vm.perform r (r.start w)).2 = last at stages exhausted
    cases stages with
    | unprepared early =>
        obtain rfl := Except.error.inj failed
        have start := vm.prepared r (r.start w)
        rw [early] at start
        cases start with
        | noMessage bad => exact absurd exhausted Bool.false_ne_true
        | unpaid decoded dear => exact ⟨_, rfl⟩
        | alreadyBound decoded paid bound =>
            rw [exhausted_of_paid paid] at exhausted
            exact absurd exhausted Bool.false_ne_true
    | failed ready ran bad =>
        obtain rfl := Except.error.inj failed
        rw [World.callTank_release] at exhausted
        exact ⟨_, if_pos exhausted⟩
    | unpaid ready ran dear =>
        obtain rfl := Except.error.inj failed
        exact ⟨_, rfl⟩
    | noResponse ready ran paid bad => exact absurd ⟨⟨ready, ran⟩, paid, bad⟩ sound
    | done ready ran paid read => cases failed
  · rw [perform_of_garbled garbled] at failed
    obtain rfl := Except.error.inj failed
    rfl

end Vm

namespace Sample

/-- A unit that asks for more gas than there is, makes nothing of the refusal, and ends in its own
way. -/
def careless (ending : Program) : Guest := fun _ => .charge 5000 fun _ => ending

def lone (unit : Guest) : World :=
  World.initial (Disk.blank []) .empty
    [.named Uri.storeAuthority (Table.ofList [(code.toHex, .guest unit)])]

end Sample

/-- A unit that swallows a refusal and then breaks down has run out of gas. -/
theorem refusal_reported_breakdown :
    ∃ reason, (Sample.host.enter .execute Sample.request
      (Sample.lone (Sample.careless (.panic "overdrawn")))).1 =
        .error ⟨.insufficientGas reason, 100⟩ := by
  have failed : (Sample.host.enter .execute Sample.request
      (Sample.lone (Sample.careless (.panic "overdrawn")))).1 =
        .error ⟨.insufficientGas "guest: guest panicked", 100⟩ := by decide +kernel
  have sound : ¬ Sample.host.Garbled (Entry.execute.request Sample.request)
      (Sample.lone (Sample.careless (.panic "overdrawn"))) := by
    intro garbled
    have malformed := Vm.perform_of_garbled garbled
    rw [Vm.enter_eq_call, Vm.call_fst, malformed] at failed
    cases failed
  have refused : Sample.host.Refused (Entry.execute.request Sample.request)
      (Sample.lone (Sample.careless (.panic "overdrawn"))) :=
    Vm.exhausted_iff_refused.1 (by decide +kernel)
  obtain ⟨reason, reported⟩ :=
    (Vm.refusal_reported Sample.host .execute Sample.request _ failed refused).1 sound
  refine ⟨reason, ?_⟩
  rw [failed, ← reported]

/-- A unit that swallows a refusal and then gives a byte that is no response fails for another
reason: not every failing call in which a charge was refused says that gas ran out. -/
theorem refusal_unreported :
    ¬ ∀ (vm : Vm) (entry : Entry) (r : CallRequest) (w : World) (failure : CallFailure),
      (vm.enter entry r w).1 = .error failure → vm.Refused (entry.request r) w →
        ∃ reason, failure.error = .insufficientGas reason := by
  intro always
  have failed : (Sample.host.enter .execute Sample.request
      (Sample.lone (Sample.careless (.done (.ok [0]))))).1 =
        .error ⟨.ofInvoke .malformed, 100⟩ := by decide +kernel
  have refused : Sample.host.Refused (Entry.execute.request Sample.request)
      (Sample.lone (Sample.careless (.done (.ok [0])))) :=
    Vm.exhausted_iff_refused.1 (by decide +kernel)
  obtain ⟨reason, reported⟩ := always _ _ _ _ _ failed refused
  cases reported

end ContractHost
