import ContractHost.Bridge.Dispatch

/-!
Requests to the host state as guests make them: the arguments are encoded, the bridge is invoked,
and the answer is decoded.
-/

namespace ContractHost.Guest

/-- Invokes a unit with a value as argument and goes on with the decoded answer, or with the
failure. -/
def invoke {α β : Type} [Wire α] [Wire β] (uri : Uri) (method : String) (argument : α)
    (next : Except InvokeError β → Program) : Program :=
  .invoke uri ⟨method, Wire.toMsgpack argument, none⟩ fun
    | .error e => next (.error e)
    | .ok raw =>
      match Wire.ofMsgpack? (α := β) raw with
      | none => next (.error .malformed)
      | some b => next (.ok b)

def orFail {β : Type} (next : β → Program) : Except InvokeError β → Program
  | .error e => .fail e
  | .ok b => next b

def set (key value : Bytes) (next : Bool → Program) : Program :=
  invoke (β := Bool) Bridge.uri HostMethod.set.name (KeyValueArgs.mk key value) (orFail next)

def get (key : Bytes) (next : Bytes → Program) : Program :=
  invoke (β := Bytes) Bridge.uri HostMethod.get.name (KeyArgs.mk key) (orFail next)

/-- Goes on with decoded arguments; if they are malformed, the unit fails. -/
def decode {α : Type} [Wire α] (args : Bytes) (next : α → Program) : Program :=
  match Wire.ofMsgpack? args with
  | none => .fail .malformed
  | some a => next a

end ContractHost.Guest
