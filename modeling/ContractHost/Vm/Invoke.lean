import ContractHost.Bridge.Dispatch

/-!
Running units. An invocation finds the unit that its locator leads to and runs the unit's program
with the same invoker, so a unit that is invoked by another shares the tank and the host state of
the call. Invocations may be nested up to a bound; a unit that goes beyond it breaks down.
-/

namespace ContractHost

structure GasConfig where
  /-- What every call is charged before its unit runs. -/
  invokeBase : UInt64
  hostOp : UInt64
  hostPerByte : UInt64
  deriving DecidableEq, Repr

def GasConfig.hostCosts (g : GasConfig) : Gas.Costs := ⟨g.hostOp, g.hostPerByte⟩

/-- The host: its prices, where codes are stored, and how deep invocations may be nested. -/
structure Vm where
  gas : GasConfig
  store : CodeStore
  maxNesting : Nat

def World.resolve (w : World) (uri : Uri) : Except InvokeError Invocable × World :=
  let (answer, resolvers) := Resolver.resolveChain w.disk uri w.resolvers
  (answer, { w with resolvers := resolvers })

/-- Asks the tank of an invoker for gas; without a tank there is no answer. -/
def World.chargeInvoker (w : World) (units : UInt64) :
    Option TankRef → Option (Except Gas.Refusal Unit) × World
  | none => (none, w)
  | some r =>
    let (answer, w) := w.charge r units
    (some answer, w)

def Program.run (invoke : Uri → Call → World → Outcome × World) (invoker : Option TankRef) :
    Program → World → Outcome × World
  | .done result, w => (.answered result, w)
  | .panic message, w => (.panicked message, w)
  | .invoke uri call next, w =>
    match invoke uri call w with
    | (.answered result, w) => (next result).run invoke invoker w
    | (.panicked message, w) => (.panicked message, w)
  | .charge units next, w =>
    let (answer, w) := w.chargeInvoker units invoker
    (next answer).run invoke invoker w
  | .tank next, w => (next (invoker.map w.tank)).run invoke invoker w
  | .note n next, w => next.run invoke invoker (w.note n)

namespace Vm

/-- The resolvers of a host that was given a loader and no resolvers of its own: the bridge by its
name, then the codes that are stored. -/
def standardResolvers (store : CodeStore) (loader : Loader) : List Resolver :=
  [.named Uri.hostAuthority (Table.ofList [(Bridge.unitName, .bridge)]), .fresh store loader]

/-- Invokes the unit that a locator leads to; further invocations may be nested `depth` deep. -/
def invoke (vm : Vm) (invoker : Option TankRef) : Nat → Uri → Call → World → Outcome × World
  | 0, _, _, w => (.panicked "invocations are nested too deep", w)
  | depth + 1, uri, call, w =>
    match w.resolve uri with
    | (.error e, w) => (.answered (.error e), w)
    | (.ok .bridge, w) =>
      let (result, w) := Bridge.answer vm.gas.hostCosts invoker call w
      (.answered result, w)
    | (.ok (.guest g), w) => (g call).run (vm.invoke invoker depth) invoker w

def runProgram (vm : Vm) (invoker : Option TankRef) (p : Program) (w : World) : Outcome × World :=
  p.run (vm.invoke invoker vm.maxNesting) invoker w

end Vm

end ContractHost
