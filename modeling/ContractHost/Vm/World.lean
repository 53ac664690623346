import ContractHost.Gas.Price
import ContractHost.Resolver
import ContractHost.State.Layer

/-!
All that can change while the host runs, and the small changes it is made of: charging a tank,
binding the host state to a call and letting it go, keeping notes.
-/

namespace ContractHost

/-- Which tank an invoker carries: the tank of the call that is running, or one that was set up
under a name. -/
inductive TankRef where
  | call
  | named (name : String)
  deriving DecidableEq, Repr

/-- What a live guard holds: the state that its call works on, and the writes that the call has made
so far, which have not reached that state. -/
structure Guard where
  scope : Layer
  writes : Writes

namespace Guard

/-- The value under a key as the call sees it, its own writes first. -/
def get (g : Guard) (h : Heap) (k : Bytes) : Option Bytes :=
  match g.writes.get? k with
  | some v => v
  | none => g.scope.get h k

def apply (g : Guard) : Option Change → Guard
  | none => g
  | some (k, v) => { g with writes := g.writes.insert k v }

end Guard

/-- By which number a guard is known while it is live. -/
abbrev GuardId := Nat

/-- What the host state is bound to: whose tank opens it, and the guard to which requests go. -/
structure Binding where
  owner : TankRef
  guard : GuardId
  deriving DecidableEq

structure World where
  disk : Disk
  heap : Heap
  /-- What the host state is bound to, if it is bound. -/
  binding : Option Binding
  /-- The guards that are live. -/
  guards : Table GuardId Guard
  /-- The tank of the call that is running, or was the last to run. -/
  callTank : Gas.Tank
  /-- The tanks that were set up under a name. -/
  tanks : Table String Gas.Tank
  resolvers : List Resolver
  /-- Notes of units, the latest first. -/
  notes : List Note

namespace World

def initial (disk : Disk) (heap : Heap) (resolvers : List Resolver) : World where
  disk := disk
  heap := heap
  binding := none
  guards := ∅
  callTank := .new 0 0
  tanks := ∅
  resolvers := resolvers
  notes := []

/-- A tank. A name under which none was set up stands for an empty one. -/
def tank (w : World) : TankRef → Gas.Tank
  | .call => w.callTank
  | .named n => (w.tanks.get? n).getD (.new 0 0)

def setTank (w : World) (t : Gas.Tank) : TankRef → World
  | .call => { w with callTank := t }
  | .named n => { w with tanks := w.tanks.insert n t }

def charge (w : World) (r : TankRef) (units : UInt64) : Except Gas.Refusal Unit × World :=
  let (t, answer) := (w.tank r).charge units
  (answer, w.setTank t r)

def note (w : World) (n : Note) : World := { w with notes := n :: w.notes }

def onDisk {α : Type} (w : World) (act : StateM Disk α) : α × World :=
  let (a, disk) := act.run w.disk
  (a, { w with disk := disk })

def isBound (w : World) : Bool := w.binding.isSome

/-- A number that no live guard has. -/
def freshGuard (w : World) : GuardId := (w.guards.keys.map (· + 1)).foldr max 0

/-- Binds the host state to the call with a tank. The guard that comes into being holds no writes. -/
def bind (w : World) (scope : Layer) (owner : TankRef) : Except VmError (GuardId × World) :=
  match w.binding with
  | some _ => .error .alreadyBound
  | none =>
    let g := w.freshGuard
    .ok (g, { w with binding := some ⟨owner, g⟩, guards := w.guards.insert g ⟨scope, ∅⟩ })

def pending (w : World) (g : GuardId) : Nat :=
  match w.guards.get? g with
  | some guard => guard.writes.size
  | none => 0

/-- Ends a guard: nothing is bound any more, and the writes that the guard held are lost. A guard
that is not live cannot be ended. -/
def release (w : World) (g : GuardId) : World :=
  match w.guards.get? g with
  | some _ => { w with binding := none, guards := w.guards.erase g }
  | none => w

/-- Makes the writes that a guard holds, in ascending order of the keys, and ends it. -/
def commit (w : World) (g : GuardId) : World :=
  match w.guards.get? g with
  | some guard => { w with heap := guard.scope.putAll w.heap guard.writes.entries }.release g
  | none => w

/-- The guard that an invoker may use, with its tank: the one to which the host state is bound, if
the invoker carries the tank that opens it. -/
def boundTo (w : World) : Option TankRef → Option (TankRef × GuardId × Guard)
  | none => none
  | some r =>
    match w.binding with
    | some b => if b.owner = r then (w.guards.get? b.guard).map fun guard => (r, b.guard, guard) else none
    | none => none

def setGuard (w : World) (g : GuardId) (guard : Guard) : World :=
  { w with guards := w.guards.insert g guard }

end World

end ContractHost
