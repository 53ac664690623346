import ContractHost.Proofs.Vm.Log
import ContractHost.Vm.Call

/-!
The ways in which a call can end, stage by stage.

A call is prepared, its unit is invoked, and its result is concluded. `Prepared`
and `Performed` name every exit of these stages together with the world that is
left there, so that a statement about calls is one case for each exit, and the
definition of a call is opened here only.
-/

namespace ContractHost

namespace Vm

def invocation (r : CallRequest) (args : Bytes) : Call :=
  ⟨r.method, args, some (Wire.toMsgpack (CallEnv.mk r.env r.info))⟩

/-- How the first part of a call can end. -/
inductive Prepared (vm : Vm) (r : CallRequest) (w : World) :
    Except VmError (Call × GuardId) → World → Prop
  | noMessage {e : Message.Error} (bad : Message.decode r.msg = .error e) :
      Prepared vm r w (.error (.serialization e.message)) w
  | unpaid {args : Bytes} {t : Gas.Tank} {refusal : Gas.Refusal}
      (decoded : Message.decode r.msg = .ok args)
      (dear : w.callTank.charge vm.gas.invokeBase = (t, .error refusal)) :
      Prepared vm r w (.error (.ofInvoke (.outOfGas refusal))) { w with callTank := t }
  | alreadyBound {args : Bytes} {t : Gas.Tank} {b : Binding}
      (decoded : Message.decode r.msg = .ok args)
      (paid : w.callTank.charge vm.gas.invokeBase = (t, .ok ())) (bound : w.binding = some b) :
      Prepared vm r w (.error .alreadyBound) { w with callTank := t }
  | ready {args : Bytes} {t : Gas.Tank} (decoded : Message.decode r.msg = .ok args)
      (paid : w.callTank.charge vm.gas.invokeBase = (t, .ok ())) (free : w.binding = none) :
      Prepared vm r w (.ok (invocation r args, w.freshGuard))
        { w with callTank := t, binding := some ⟨.call, w.freshGuard⟩,
                 guards := w.guards.insert w.freshGuard ⟨r.scope, ∅⟩ }

theorem prepared (vm : Vm) (r : CallRequest) (w : World) :
    Prepared vm r w (vm.prepare r w).1 (vm.prepare r w).2 := by
  unfold prepare
  cases decoded : Message.decode r.msg with
  | error e => exact .noMessage decoded
  | ok args =>
      dsimp only
      rcases charged : w.callTank.charge vm.gas.invokeBase with ⟨t, refusal | _⟩
      · rw [World.charge_of_error (r := .call) charged]
        exact .unpaid decoded charged
      · rw [World.charge_of_ok (r := .call) charged]
        dsimp only
        cases bound : w.binding with
        | some b =>
            rw [World.bind_of_bound (w := w.setTank t .call) bound]
            exact .alreadyBound decoded charged bound
        | none =>
            rw [World.bind_of_free (w := w.setTank t .call) bound]
            exact .ready decoded charged bound

/-- A call gets through its first part if its message can be read, the base charge is admitted and
nothing is bound. -/
theorem prepare_of_free {vm : Vm} {r : CallRequest} {w : World} {args : Bytes} {t : Gas.Tank}
    (decoded : Message.decode r.msg = .ok args)
    (paid : w.callTank.charge vm.gas.invokeBase = (t, .ok ())) (free : w.binding = none) :
    vm.prepare r w = (.ok (invocation r args, w.freshGuard), w.opened r.scope t) := by
  have admitted : (w.tank .call).charge vm.gas.invokeBase = _ := paid
  simp only [prepare, decoded, World.charge_of_ok admitted]
  rw [World.bind_of_free]
  · rfl
  · exact free

/-- How a call can end, once its tank is in place. -/
inductive Performed (vm : Vm) (r : CallRequest) (w : World) :
    Except VmError Response → World → Prop
  | unprepared {e : VmError} {w' : World} (early : vm.prepare r w = (.error e, w')) :
      Performed vm r w (.error e) w'
  | failed {call : Call} {g : GuardId} {v w' : World} {outcome : Outcome} {e : InvokeError}
      (ready : vm.prepare r w = (.ok (call, g), v))
      (ran : vm.invoke (some .call) vm.maxNesting (Uri.store r.checksum) call v = (outcome, w'))
      (bad : contain outcome = .error e) :
      Performed vm r w (.error (failure w'.callTank e)) (w'.release g)
  | unpaid {call : Call} {g : GuardId} {v w' : World} {raw : Bytes} {t : Gas.Tank}
      {refusal : Gas.Refusal} (ready : vm.prepare r w = (.ok (call, g), v))
      (ran : vm.invoke (some .call) vm.maxNesting (Uri.store r.checksum) call v =
        (.answered (.ok raw), w'))
      (dear : w'.callTank.charge (r.rate.mulFloor (UInt64.ofNat raw.length)) =
        (t, .error refusal)) :
      Performed vm r w (.error (.insufficientGas ("cannot cover deserialization of " ++
        toString raw.length ++ " byte result"))) (World.release { w' with callTank := t } g)
  | noResponse {call : Call} {g : GuardId} {v w' : World} {raw : Bytes} {t : Gas.Tank}
      (ready : vm.prepare r w = (.ok (call, g), v))
      (ran : vm.invoke (some .call) vm.maxNesting (Uri.store r.checksum) call v =
        (.answered (.ok raw), w'))
      (paid : w'.callTank.charge (r.rate.mulFloor (UInt64.ofNat raw.length)) = (t, .ok ()))
      (bad : Wire.ofMsgpack? (α := Response) raw = none) :
      Performed vm r w (.error (.ofInvoke .malformed)) (World.release { w' with callTank := t } g)
  | done {call : Call} {g : GuardId} {v w' : World} {raw : Bytes} {t : Gas.Tank}
      {response : Response} (ready : vm.prepare r w = (.ok (call, g), v))
      (ran : vm.invoke (some .call) vm.maxNesting (Uri.store r.checksum) call v =
        (.answered (.ok raw), w'))
      (paid : w'.callTank.charge (r.rate.mulFloor (UInt64.ofNat raw.length)) = (t, .ok ()))
      (read : Wire.ofMsgpack? (α := Response) raw = some response) :
      Performed vm r w (.ok response) (World.commit { w' with callTank := t } g)

theorem contain_eq_ok_iff {outcome : Outcome} {raw : Bytes} :
    contain outcome = .ok raw ↔ outcome = .answered (.ok raw) := by
  cases outcome <;> simp [contain]

theorem performed (vm : Vm) (r : CallRequest) (w : World) :
    Performed vm r w (vm.perform r w).1 (vm.perform r w).2 := by
  unfold perform
  rcases ready : vm.prepare r w with ⟨e | ⟨call, g⟩, v⟩
  · exact .unprepared ready
  · dsimp only
    rcases ran : vm.invoke (some .call) vm.maxNesting (Uri.store r.checksum) call v with
      ⟨outcome, w'⟩
    dsimp only
    cases contained : contain outcome with
    | error e => exact .failed ready ran contained
    | ok raw =>
        rw [contain_eq_ok_iff.1 contained] at ran
        simp only [conclude]
        rcases charged : w'.callTank.charge (r.rate.mulFloor (UInt64.ofNat raw.length)) with
          ⟨t, refusal | _⟩
        · rw [World.charge_of_error (r := .call) charged]
          exact .unpaid ready ran charged
        · rw [World.charge_of_ok (r := .call) charged]
          dsimp only
          cases read : Wire.ofMsgpack? (α := Response) raw with
          | none => exact .noResponse ready ran charged read
          | some response => exact .done ready ran charged read

end Vm

def CallRequest.start (r : CallRequest) (w : World) : World :=
  { w with callTank := .new r.limit r.meter }

inductive Entry where
  | instantiate
  | execute

def Entry.request : Entry → CallRequest → CallRequest
  | .instantiate, r => { r with method := instantiateEntry }
  | .execute, r => r

@[simp] theorem Entry.scope_request (entry : Entry) (r : CallRequest) :
    (entry.request r).scope = r.scope := by cases entry <;> rfl

@[simp] theorem Entry.limit_request (entry : Entry) (r : CallRequest) :
    (entry.request r).limit = r.limit := by cases entry <;> rfl

namespace Vm

def enter (vm : Vm) : Entry → CallRequest → World →
    Except CallFailure (Response × UInt64) × World
  | .instantiate => vm.instantiate
  | .execute => vm.call

theorem enter_eq_call (vm : Vm) (entry : Entry) (r : CallRequest) (w : World) :
    vm.enter entry r w = vm.call (entry.request r) w := by
  cases entry <;> rfl

/-- The log of a call: what its unit did, and nothing if the call ends before
its unit is invoked. -/
def callLog (vm : Vm) (r : CallRequest) (w : World) : List LogEntry :=
  match vm.prepare r (r.start w) with
  | (.ok (call, _), w) => vm.log (some .call) vm.maxNesting (Uri.store r.checksum) call w
  | (.error _, _) => []

theorem callLog_of_ready {vm : Vm} {r : CallRequest} {w v : World} {call : Call} {g : GuardId}
    (ready : vm.prepare r (r.start w) = (.ok (call, g), v)) :
    vm.callLog r w = vm.log (some .call) vm.maxNesting (Uri.store r.checksum) call v := by
  simp [callLog, ready]

theorem callLog_of_early {vm : Vm} {r : CallRequest} {w v : World} {e : VmError}
    (early : vm.prepare r (r.start w) = (.error e, v)) : vm.callLog r w = [] := by
  simp [callLog, early]

@[simp] theorem call_snd (vm : Vm) (r : CallRequest) (w : World) :
    (vm.call r w).2 = (vm.perform r (r.start w)).2 := by
  unfold call CallRequest.start
  rcases vm.perform r { w with callTank := .new r.limit r.meter } with ⟨_ | _, _⟩ <;> rfl

theorem call_fst (vm : Vm) (r : CallRequest) (w : World) :
    (vm.call r w).1 =
      match (vm.perform r (r.start w)).1 with
      | .ok response => .ok (response, (vm.call r w).2.callTank.used)
      | .error e => .error ⟨e, (vm.call r w).2.callTank.used⟩ := by
  unfold call CallRequest.start
  rcases vm.perform r { w with callTank := .new r.limit r.meter } with ⟨_ | _, _⟩ <;> rfl

end Vm

end ContractHost
