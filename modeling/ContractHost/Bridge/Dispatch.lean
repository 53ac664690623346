import ContractHost.Bridge.Request
import ContractHost.Vm.World

/-!
The bridge to the host state: the unit that guests call to read and write the state of the contract
that is being called. Only an invoker that carries the tank of the call to which the state is bound
gets through; everybody else learns that nothing is bound to them before their arguments are looked
at. A request that is not answered changes nothing.
-/

namespace ContractHost.Bridge

def unitName : String := "state"

def uri : Uri := Uri.host unitName

def dispatch (costs : Gas.Costs) (invoker : Option TankRef) (method : HostMethod) (args : Bytes)
    (w : World) : Except InvokeError Bytes × World :=
  match w.boundTo invoker with
  | none => (.error .unbound, w)
  | some (r, g, guard) =>
    match Request.decode? args method with
    | none => (.error .malformed, w)
    | some request =>
      -- The price may depend on the value that is read, so reading comes before the charge.
      let view := guard.get w.heap
      match w.charge r (costs.of (request.bytesTouched view)) with
      | (.error refusal, w) => (.error (.outOfGas refusal), w)
      | (.ok (), w) =>
        (.ok (request.answer view), w.setGuard g (guard.apply request.change?))

/-- Answers an invocation. The method is looked up before anything else. -/
def answer (costs : Gas.Costs) (invoker : Option TankRef) (call : Call) (w : World) :
    Except InvokeError Bytes × World :=
  match HostMethod.parse call.method with
  | .error e => (.error e, w)
  | .ok method => dispatch costs invoker method call.args w

end ContractHost.Bridge
