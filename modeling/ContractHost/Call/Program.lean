import ContractHost.Call.Environment
import ContractHost.Call.Error

/-!
What a unit does when it is invoked, as a tree of the steps it takes through the invoker it was
handed: invoking other units, using gas, looking at the tank, keeping notes. A step that gets an
answer goes on with a program for each answer it could get, so a unit may do anything with what it
is told, and it touches nothing but what its steps name.
-/

namespace ContractHost

/-- An invocation: the method, the encoded arguments, and the encoded environment if there is one. -/
structure Call where
  method : String
  args : Bytes
  env : Option Bytes
  deriving DecidableEq

/-- What a step was found to give, as it is noted. -/
inductive Finding where
  | nothing
  | flag (b : Bool)
  | number (n : UInt32)
  | bytes (b : Bytes)
  | tank (t : Gas.Tank)
  | call (c : Call)
  | env (e : CallEnv)
  deriving DecidableEq

structure Note where
  step : String
  outcome : Except InvokeError Finding

inductive Program where
  /-- Ends with an encoded result or a failure. -/
  | done (result : Except InvokeError Bytes)
  /-- Breaks down. -/
  | panic (message : String)
  /-- Invokes another unit and goes on with its result. -/
  | invoke (uri : Uri) (call : Call) (next : Except InvokeError Bytes → Program)
  /-- Asks the tank for gas; without a tank there is no answer. -/
  | charge (units : UInt64) (next : Option (Except Gas.Refusal Unit) → Program)
  /-- Looks at the tank, if there is one. -/
  | tank (next : Option Gas.Tank → Program)
  /-- Notes something. -/
  | note (n : Note) (next : Program)

/-- A unit: what it does for each invocation. -/
abbrev Guest := Call → Program

def Program.fail (e : InvokeError) : Program := .done (.error e)

def Program.give {α : Type} [Wire α] (a : α) : Program := .done (.ok (Wire.toMsgpack a))

inductive Outcome where
  | answered (result : Except InvokeError Bytes)
  | panicked (message : String)

/-- What a locator can lead to: the bridge to the host state, or a guest. -/
inductive Invocable where
  | bridge
  | guest (g : Guest)

end ContractHost
