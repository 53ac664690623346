import ContractHost.Proofs.Bridge.Protocol
import ContractHost.Proofs.Gas.Accounting

/-!
The bridge stands for a plain map with a tank.

To the one whose tank opens it, the bridge is a key-value map that starts from
what the scope holds: `Request.onMap` says what each request does to such a map,
and `MeteredMap.answer` puts the order of a request around it, which is to name a
method, to have readable arguments, to pay, and only then to act. `World.Mirrors`
says that a world shows such a map through its guard. A request keeps that and is
answered as by the map (`answered`), so a run of requests is too (`served`), and a
request that fails leaves the world as it was, except that a refused price marks
the tank (`settled`).
-/

namespace ContractHost

structure MeteredMap where
  values : Bytes → Option Bytes
  tank : Gas.Tank

namespace MeteredMap

/-- Answers a request: it must name a method, have readable arguments, and be paid for. -/
def answer (costs : Gas.Costs) (m : MeteredMap) (call : Call) :
    Except InvokeError Bytes × MeteredMap :=
  match HostMethod.parse call.method with
  | .error _ => (.error (.unknownMethod call.method), m)
  | .ok method =>
    match Request.decode? call.args method with
    | none => (.error .malformed, m)
    | some q =>
      match m.tank.charge (costs.of (q.bytesTouched m.values)) with
      | (t, .error refusal) => (.error (.outOfGas refusal), { m with tank := t })
      | (t, .ok ()) => (.ok (q.onMap m.values).1, ⟨(q.onMap m.values).2, t⟩)

def serve (costs : Gas.Costs) (m : MeteredMap) :
    List Call → List (Except InvokeError Bytes) × MeteredMap
  | [] => ([], m)
  | call :: rest =>
    let (reply, next) := m.answer costs call
    let (replies, last) := next.serve costs rest
    (reply :: replies, last)

end MeteredMap

def Bridge.serve (costs : Gas.Costs) (invoker : Option TankRef) (w : World) :
    List Call → List (Except InvokeError Bytes) × World
  | [] => ([], w)
  | call :: rest =>
    let (reply, next) := Bridge.answer costs invoker call w
    let (replies, last) := Bridge.serve costs invoker next rest
    (reply :: replies, last)

/-- A world in which the host state is bound to a tank and a guard over a scope, on a heap, and
that shows a map to whoever carries the tank. -/
structure World.Mirrors (w : World) (b : Binding) (scope : Layer) (heap : Heap) (m : MeteredMap) :
    Prop where
  heap_eq : w.heap = heap
  reached : ∃ guard, w.boundTo (some b.owner) = some (b.owner, b.guard, guard) ∧
    guard.scope = scope
  view_eq : w.view = m.values
  tank_eq : w.tank b.owner = m.tank

structure Bridge.Settled (costs : Gas.Costs) (b : Binding) (w : World) (call : Call)
    (reply : Except InvokeError Bytes) (left : World) : Prop where
  /-- An answered request is charged its price, no more and no less. Only a tank without a limit
  stops counting, at the greatest quantity. -/
  paid {bytes : Bytes} (answered : reply = .ok bytes) : ∃ q, call.request? = some q ∧
    (w.tank b.owner).charge (costs.of (q.bytesTouched w.view)) = (left.tank b.owner, .ok ()) ∧
      ((w.tank b.owner).limit ≠ Gas.greatest →
        (left.tank b.owner).used.toNat =
          (w.tank b.owner).used.toNat + (costs.of (q.bytesTouched w.view)).toNat)
  /-- A request fails in one of three ways. -/
  causes {e : InvokeError} (failed : reply = .error e) :
    e = .unknownMethod call.method ∨ e = .malformed ∨ ∃ refusal, e = .outOfGas refusal
  /-- A refused price marks the tank, and nothing else changes. -/
  latched {refusal : Gas.Refusal} (failed : reply = .error (.outOfGas refusal)) :
    left = w.setTank { w.tank b.owner with exhausted := true } b.owner
  /-- After any other failure the world is the same. -/
  same {e : InvokeError} (failed : reply = .error e) (other : ∀ refusal, e ≠ .outOfGas refusal) :
    left = w
  /-- After any failure the scope, what the guard holds, its count and the gas used are the same. -/
  kept {e : InvokeError} (failed : reply = .error e) :
    left.heap = w.heap ∧ left.guards = w.guards ∧ left.pending b.guard = w.pending b.guard ∧
      (left.tank b.owner).used = (w.tank b.owner).used

theorem Bridge.Settled.of_same {costs : Gas.Costs} {b : Binding} {w : World} {call : Call}
    {e : InvokeError} (cause : e = .unknownMethod call.method ∨ e = .malformed) :
    Bridge.Settled costs b w call (.error e) w where
  paid := nofun
  causes failed := by
    cases failed
    exact cause.imp id .inl
  latched failed := by
    cases failed
    rcases cause with wrong | wrong <;> cases wrong
  same _ _ := rfl
  kept _ := ⟨rfl, rfl, rfl, rfl⟩

namespace World.Mirrors

variable {costs : Gas.Costs} {w w' : World} {b : Binding} {scope : Layer} {heap : Heap}
  {m : MeteredMap} {call : Call} {reply : Except InvokeError Bytes}

/-- A request is answered as by the map, and leaves a world that mirrors what the map becomes. -/
theorem answered (s : w.Mirrors b scope heap m)
    (a : Bridge.Answers costs (some b.owner) call w reply w') :
    (m.answer costs call).1 = reply ∧ w'.Mirrors b scope heap (m.answer costs call).2 := by
  obtain ⟨guard, reached, onScope⟩ := s.reached
  have view : guard.get w.heap = m.values := (view_of_bound reached).symm.trans s.view_eq
  cases a with
  | unknown noMethod => simpa only [MeteredMap.answer, noMethod] using ⟨trivial, s⟩
  | unbound known shut => exact absurd (reached.symm.trans shut) nofun
  | malformed known bound bad =>
      simp only [Call.request?, known] at bad
      simpa only [MeteredMap.answer, known, bad] using ⟨trivial, s⟩
  | @refused r g guard' q t refusal bound made dear =>
      obtain ⟨method, known, decoded⟩ := Call.request?_eq_some made
      cases bound.symm.trans reached
      rw [view, s.tank_eq] at dear
      simp only [MeteredMap.answer, known, decoded, dear, true_and]
      have reached := (boundTo_setTank w t b.owner _).trans reached
      refine ⟨(heap_setTank ..).trans s.heap_eq, ⟨guard, reached, onScope⟩, ?_, tank_setTank_self ..⟩
      rw [view_of_bound reached, heap_setTank, view]
  | @done r g guard' q t bound made paid =>
      obtain ⟨method, known, decoded⟩ := Call.request?_eq_some made
      cases bound.symm.trans reached
      rw [view, s.tank_eq] at paid
      have carried := Bridge.Reached.of_bound reached t q
      simp only [MeteredMap.answer, known, decoded, paid, view, q.answer_eq_onMap, true_and]
      refine ⟨carried.heap.trans s.heap_eq, ⟨_, boundTo_setGuard reached t _, ?_⟩, ?_, ?_⟩
      · rw [guard.scope_apply, onScope]
      · rw [carried.shows, s.view_eq]
      · rw [tank_setGuard, tank_setTank_self]

theorem served (s : w.Mirrors b scope heap m) (calls : List Call) :
    (Bridge.serve costs (some b.owner) w calls).1 = (m.serve costs calls).1 ∧
      (Bridge.serve costs (some b.owner) w calls).2.Mirrors b scope heap (m.serve costs calls).2 := by
  induction calls generalizing w m with
  | nil => exact ⟨rfl, s⟩
  | cons call rest ih =>
      obtain ⟨reply, next⟩ := s.answered (Bridge.answers costs _ call w)
      obtain ⟨replies, last⟩ := ih next
      exact ⟨congrArg₂ List.cons reply.symm replies, last⟩

theorem settled (s : w.Mirrors b scope heap m)
    (a : Bridge.Answers costs (some b.owner) call w reply w') :
    Bridge.Settled costs b w call reply w' := by
  obtain ⟨guard, reached, -⟩ := s.reached
  cases a with
  | unknown noMethod => exact .of_same (.inl rfl)
  | unbound known shut => exact absurd (reached.symm.trans shut) nofun
  | malformed known bound bad => exact .of_same (.inr rfl)
  | @refused r g guard' q t refusal bound made dear =>
      cases bound.symm.trans reached
      obtain ⟨rfl, -, -⟩ := Gas.Tank.charge_eq_error dear
      exact {
        paid := nofun
        causes := fun failed => .inr (.inr ⟨refusal, (Except.error.inj failed).symm⟩)
        latched := fun _ => rfl
        same := fun failed other => absurd (Except.error.inj failed).symm (other refusal)
        kept := fun _ => by simp }
  | @done r g guard' q t bound made paid =>
      cases bound.symm.trans reached
      refine ⟨fun _ => ⟨q, made, ?_, fun finite => ?_⟩, nofun, nofun, nofun, nofun⟩
      · rw [view_of_bound reached, tank_setGuard, tank_setTank_self, paid]
      · rw [view_of_bound reached, tank_setGuard, tank_setTank_self]
        exact Gas.Tank.used_charge_of_finite finite paid

end World.Mirrors

/-- The guard that a free world opens mirrors what its scope holds. -/
theorem World.mirrors_of_bind {w w₀ : World} {scope : Layer} {owner : TankRef} {g : GuardId}
    (opened : w.bind scope owner = .ok (g, w₀)) :
    w₀.Mirrors ⟨owner, g⟩ scope w.heap ⟨scope.get w.heap, w.tank owner⟩ := by
  cases free : w.binding with
  | some b => exact absurd ((bind_of_bound free scope owner).symm.trans opened) nofun
  | none =>
      rw [bind_of_free free] at opened
      obtain ⟨rfl, same⟩ := Prod.mk.inj (Except.ok.inj opened)
      have reached : w₀.boundTo (some owner) = some (owner, w.freshGuard, ⟨scope, ∅⟩) := by
        subst same
        exact boundTo_eq_some_iff.2 ⟨rfl, rfl, Table.get?_insert_self _ _ _⟩
      subst same
      refine ⟨rfl, ⟨⟨scope, ∅⟩, reached, rfl⟩, view_of_bound reached, ?_⟩
      cases owner <;> rfl

/-- The bridge stands for a plain map with a tank. Whatever is asked of it through the tank that it
was bound to, and in whatever order: the answers are those of a map that started from what the scope
held, the guard shows that map, and the scope is as it was. Of every request after that an answer is
charged its price, and a failure changes nothing, except that a refused price marks the tank. -/
theorem bridge_refines_map (costs : Gas.Costs) {w w₀ : World} {scope : Layer} {owner : TankRef}
    {g : GuardId} (opened : w.bind scope owner = .ok (g, w₀)) (calls : List Call) :
    let served := Bridge.serve costs (some owner) w₀ calls
    let expected := MeteredMap.serve costs ⟨scope.get w.heap, w.tank owner⟩ calls
    served.1 = expected.1 ∧ served.2.Mirrors ⟨owner, g⟩ scope w.heap expected.2 ∧
      (∀ call, Bridge.Settled costs ⟨owner, g⟩ served.2 call
        (Bridge.answer costs (some owner) call served.2).1
        (Bridge.answer costs (some owner) call served.2).2) ∧
      ∀ method args, Bridge.dispatch costs (some owner) method args served.2 =
        Bridge.answer costs (some owner) ⟨method.name, args, none⟩ served.2 := by
  intro served expected
  obtain ⟨replies, mirrors⟩ := (World.mirrors_of_bind opened).served calls
  exact ⟨replies, mirrors, fun call => mirrors.settled (Bridge.answers costs _ call _),
    fun method args => Vm.dispatch_eq_answer costs _ method args _⟩

namespace Sample

/-- A host whose store holds one value, under a prefix, and whose call may use 30 units. -/
def thirty : World :=
  { World.initial (Disk.blank []) (Heap.empty.setStore "chain" ((∅ : Store).insert [9, 1] [7])) []
    with callTank := .new 30 0 }

def nine : Layer := .prefixed [9] (.memory "chain")

def bound : World :=
  { thirty with binding := some ⟨.call, 0⟩, guards := (∅ : Table GuardId Guard).insert 0 ⟨nine, ∅⟩ }

/-- A value is read, deleted and missed; in between, three requests fail, and the empty value is
stored. -/
def haggle : List Call :=
  [(Request.get [1]).call, (Request.write [1] none).call,
    (Request.set [2] (List.replicate 40 0)).call, ⟨"Drop", [], none⟩, ⟨"Set", [0xc1], none⟩,
    (Request.write [2] (some [])).call, (Request.has [1]).call]

end Sample

/-- The requests that fail cost nothing and are not seen afterwards, except in the mark. -/
theorem bridge_refines_map_haggle :
    Sample.thirty.bind Sample.nine .call = .ok (0, Sample.bound) ∧
      (Bridge.serve ⟨5, 1⟩ (some .call) Sample.bound Sample.haggle).1 =
        [.ok (Wire.toMsgpack ([7] : Bytes)), .ok (Wire.toMsgpack (0 : UInt32)),
          .error (.outOfGas ⟨46, 17⟩), .error (.unknownMethod "Drop"), .error .malformed,
          .ok (Wire.toMsgpack (0 : UInt32)), .ok (Wire.toMsgpack false)] ∧
      (Bridge.serve ⟨5, 1⟩ (some .call) Sample.bound Sample.haggle).2.tank .call =
        ⟨30, 0, 25, true⟩ := by
  have opened : Sample.thirty.bind Sample.nine .call = .ok (0, Sample.bound) := rfl
  have refined := bridge_refines_map ⟨5, 1⟩ opened Sample.haggle
  exact ⟨opened, refined.1.trans rfl, refined.2.1.tank_eq.trans (by decide +kernel)⟩

end ContractHost
