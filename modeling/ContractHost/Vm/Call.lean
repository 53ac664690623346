import ContractHost.Call.Message
import ContractHost.Call.Response
import ContractHost.Vm.Invoke

/-!
Calls of contracts, from the message to the answer.

A call decodes its message, pays the base charge, binds its scope to the host state, runs its unit,
pays for the size of the result, and reads the result. Only when all of that went well are its
writes made; whatever goes wrong on the way, the scope is left as it was and the host state is free
again. A unit that breaks down counts as one that failed.
-/

namespace ContractHost

structure CallRequest where
  checksum : Checksum
  env : Env
  info : MessageInfo
  msg : Bytes
  method : String
  scope : Layer
  /-- What the host's own meter reads. -/
  meter : UInt64
  limit : UInt64
  /-- The price of a byte of the result. -/
  rate : Gas.Rate

def instantiateEntry : String := "instantiate"

inductive StateOutcome where
  | finished (result : Except VmError Bytes)
  | panicked (message : String)

namespace Vm

/-- The result of a unit; one that breaks down has failed. -/
def contain : Outcome → Except InvokeError Bytes
  | .answered result => result
  | .panicked _ => .error (.guest "guest panicked")

/-- A failed invocation as the call reports it. Once gas has run out that is the reason, whatever
the unit made of it. -/
def failure (tank : Gas.Tank) (e : InvokeError) : VmError :=
  if tank.exhausted then .insufficientGas e.message else .ofInvoke e

/-- The first part of a call: decodes the message, pays the base charge and binds the scope. It gives
the invocation that is to be made, and the guard. -/
def prepare (vm : Vm) (r : CallRequest) (w : World) : Except VmError (Call × GuardId) × World :=
  match Message.decode r.msg with
  | .error e => (.error (.serialization e.message), w)
  | .ok args =>
    match w.charge .call vm.gas.invokeBase with
    | (.error refusal, w) => (.error (.ofInvoke (.outOfGas refusal)), w)
    | (.ok (), w) =>
      -- Nothing is bound up to here, so every failure before this point leaves no binding behind.
      match w.bind r.scope .call with
      | .error e => (.error e, w)
      | .ok (g, w) => (.ok (⟨r.method, args, some (Wire.toMsgpack (CallEnv.mk r.env r.info))⟩, g), w)

/-- The last part of a call, once its unit gave a result: pays for the result, reads it and makes
the writes. -/
def conclude (rate : Gas.Rate) (g : GuardId) (raw : Bytes) (w : World) :
    Except VmError Response × World :=
  match w.charge .call (rate.mulFloor (UInt64.ofNat raw.length)) with
  | (.error _, w) =>
    (.error (.insufficientGas
      ("cannot cover deserialization of " ++ toString raw.length ++ " byte result")), w.release g)
  | (.ok (), w) =>
    -- The result is paid for even if it turns out to be no response.
    match Wire.ofMsgpack? (α := Response) raw with
    | none => (.error (.ofInvoke .malformed), w.release g)
    | some response => (.ok response, w.commit g)

def perform (vm : Vm) (r : CallRequest) (w : World) : Except VmError Response × World :=
  match vm.prepare r w with
  | (.error e, w) => (.error e, w)
  | (.ok (call, g), w) =>
    let (outcome, w) := vm.invoke (some .call) vm.maxNesting (Uri.store r.checksum) call w
    match contain outcome with
    | .error e => (.error (failure w.callTank e), w.release g)
    | .ok raw => conclude r.rate g raw w

/-- Calls a contract: the answer and the gas it used, or the failure with the gas it used. -/
def call (vm : Vm) (r : CallRequest) (w : World) :
    Except CallFailure (Response × UInt64) × World :=
  let (result, w) := vm.perform r { w with callTank := .new r.limit r.meter }
  match result with
  | .ok response => (.ok (response, w.callTank.used), w)
  | .error e => (.error ⟨e, w.callTank.used⟩, w)

def instantiate (vm : Vm) (r : CallRequest) (w : World) :
    Except CallFailure (Response × UInt64) × World :=
  vm.call { r with method := instantiateEntry } w

/-- Runs a program with state bound to it, as a unit would see it, and with all the gas there can
be. Its writes are made if it succeeds. -/
def withState (vm : Vm) (scope : Layer) (p : Program) (w : World) : StateOutcome × World :=
  match World.bind { w with callTank := .new Gas.greatest 0 } scope .call with
  | .error e => (.finished (.error e), w)
  | .ok (g, w) =>
    match vm.runProgram (some .call) p w with
    | (.panicked message, w) => (.panicked message, w.release g)
    | (.answered (.error e), w) => (.finished (.error (.ofInvoke e)), w.release g)
    | (.answered (.ok result), w) => (.finished (.ok result), w.commit g)

def create (vm : Vm) (code : Bytes) (w : World) : Except VmError Checksum × World :=
  let (result, w) := w.onDisk (vm.store.create code)
  (result.mapError .ofStore, w)

def getCode (vm : Vm) (c : Checksum) (w : World) : Except VmError Bytes × World :=
  let (result, w) := w.onDisk (vm.store.getCode c)
  (result.mapError .ofStore, w)

def analyzeCode (vm : Vm) (c : Checksum) (w : World) : Except VmError CapabilityReport × World :=
  let (result, w) := w.onDisk (vm.store.analyzeCode c)
  (result.mapError .ofStore, w)

end Vm

end ContractHost
