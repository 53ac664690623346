import ContractHost.Proofs.Vm.Atomicity
import ContractHost.Proofs.Vm.Confinement

/-!
Contracts whose keys begin differently live in worlds of their own.

Two sequences of operations work on one store, each under a prefix of its own,
in any interleaving. Every operation gives what it gives when its own sequence
runs alone. The world of the interleaving is a peer of both worlds in which one
sequence ran alone: an operation of either sequence is a step in lockstep with
its own, and for the other it leaves everything in view as it was.
-/

namespace ContractHost

inductive Operation where
  | call (entry : Entry) (r : CallRequest)
  | withState (p : Program)

inductive OperationResult where
  /-- The answer of a call with the gas used, or its failure with the gas used. -/
  | called (result : Except CallFailure (Response × UInt64))
  | state (outcome : StateOutcome)

namespace Vm

def operate (vm : Vm) (scope : Layer) (w : World) : Operation → OperationResult × World
  | .call entry r =>
    let (result, w) := vm.enter entry { r with scope := scope } w
    (.called result, w)
  | .withState p =>
    let (outcome, w) := vm.withState scope p w
    (.state outcome, w)

def operateAll (vm : Vm) (scope : Layer) (w : World) :
    List Operation → List OperationResult × World
  | [] => ([], w)
  | op :: rest =>
    let (result, w) := vm.operate scope w op
    let (results, w) := vm.operateAll scope w rest
    (result :: results, w)

/-- Carries out operations in two scopes, in the order in which they come. -/
def interleave (vm : Vm) (l m : Layer) (w : World) :
    List (Operation ⊕ Operation) → List (OperationResult ⊕ OperationResult) × World
  | [] => ([], w)
  | .inl op :: rest =>
    let (result, w) := vm.operate l w op
    let (results, w) := vm.interleave l m w rest
    (.inl result :: results, w)
  | .inr op :: rest =>
    let (result, w) := vm.operate m w op
    let (results, w) := vm.interleave l m w rest
    (.inr result :: results, w)

variable {disk : Disk} {chain : List Resolver} {scope : Layer} {u v w : World}

/-- All that an operation does to the state is to make changes in its scope. -/
theorem operate_heap (vm : Vm) (scope : Layer) (free : w.binding = none) (op : Operation) :
    (vm.operate scope w op).2.binding = none ∧ (vm.operate scope w op).2.guards = w.guards ∧
      ∃ changes, (vm.operate scope w op).2.heap = scope.putAll w.heap changes := by
  cases op with
  | call entry r =>
      obtain ⟨unbound, guards, heap⟩ :=
        perform_heap vm (entry.request { r with scope := scope }) free
      simp only [operate, enter_eq_call, call_snd]
      refine ⟨unbound, guards, ?_⟩
      split at heap
      · exact ⟨_, entry.scope_request _ ▸ heap⟩
      · exact ⟨[], heap⟩
  | withState p =>
      obtain ⟨unbound, guards, heap⟩ := withState_heap vm scope p free
      refine ⟨unbound, guards, ?_⟩
      split at heap
      · exact ⟨_, heap⟩
      · exact ⟨[], heap⟩

/-- An operation gives the same in two worlds that agree in what can be learned in its scope, and
leaves worlds that do. -/
theorem Counterparts.operate {disk' : Disk} {l m : Layer}
    (s : Counterparts disk disk' chain l m u v) (vm : Vm) (op : Operation) :
    InStep (Counterparts disk disk' chain l m) (vm.operate l u op) (vm.operate m v op) := by
  obtain ⟨unbound, guards, -⟩ := operate_heap vm l s.idle_left.1 op
  obtain ⟨unbound', guards', -⟩ := operate_heap vm m s.idle_right.1 op
  have twins : InStep (Twins disk disk' chain l m) (vm.operate l u op)
      (vm.operate m v op) := by
    cases op with
    | call entry r =>
        have called : InStep (Twins disk disk' chain l m)
            (vm.enter entry { r with scope := l } u) (vm.enter entry { r with scope := m } v) := by
          cases entry with
          | instantiate => exact s.call vm { r with method := instantiateEntry }
          | execute => exact s.call vm r
        exact ⟨congrArg OperationResult.called called.same, called.worlds⟩
    | withState p =>
        have done := s.withState vm p
        exact ⟨congrArg OperationResult.state done.same, done.worlds⟩
  exact ⟨twins.same, twins.worlds.left, twins.worlds.right, s.codes, twins.worlds.view,
    ⟨unbound, guards.trans s.idle_left.2⟩, ⟨unbound', guards'.trans s.idle_right.2⟩⟩

/-- Two worlds with one disk that agree in what can be learned in one scope. -/
abbrev Peers (disk : Disk) (chain : List Resolver) (scope : Layer) : World → World → Prop :=
  Counterparts disk disk chain scope scope

namespace Peers

theorem refl (tame : Tame disk chain w) (idle : w.binding = none ∧ w.guards = ∅)
    (scope : Layer) : Peers disk chain scope w w :=
  ⟨tame, tame, fun _ _ _ _ _ => rfl, rfl, idle, idle⟩

/-- An operation under a prefix leaves what is in view under another one, if
neither goes on from the other. -/
theorem aside {p q : Bytes} {base : Layer} (hp : ¬ p <+: q) (hq : ¬ q <+: p)
    (s : Peers disk chain (.prefixed q base) u v) (vm : Vm) (op : Operation) :
    Peers disk chain (.prefixed q base) (vm.operate (.prefixed p base) u op).2 v := by
  have self := (refl s.left s.idle_left (.prefixed p base)).operate vm op
  obtain ⟨-, -, changes, heap⟩ := operate_heap vm (.prefixed p base) s.idle_left.1 op
  refine ⟨self.worlds.left, s.right, s.codes, ?_, self.worlds.idle_left, s.idle_right⟩
  rw [heap, ← s.view]
  funext j
  have away : ¬ p <+: q ++ j := fun h =>
    (List.prefix_or_prefix_of_prefix h (List.prefix_append q j)).elim hp hq
  exact Layer.get_putAll_prefixed away base u.heap changes

end Peers

/-- In an interleaving every operation gives what it gives in its own sequence,
and the worlds stay peers of those of the sequences. -/
theorem interleave_peers {p q : Bytes} {base : Layer} (hp : ¬ p <+: q) (hq : ¬ q <+: p)
    {w a b : World} (left : Peers disk chain (.prefixed p base) w a)
    (right : Peers disk chain (.prefixed q base) w b)
    (vm : Vm) (schedule : List (Operation ⊕ Operation)) :
    let both := vm.interleave (.prefixed p base) (.prefixed q base) w schedule
    let first := vm.operateAll (.prefixed p base) a (schedule.filterMap Sum.getLeft?)
    let second := vm.operateAll (.prefixed q base) b (schedule.filterMap Sum.getRight?)
    (both.1.filterMap Sum.getLeft? = first.1 ∧ both.1.filterMap Sum.getRight? = second.1) ∧
      Peers disk chain (.prefixed p base) both.2 first.2 ∧
      Peers disk chain (.prefixed q base) both.2 second.2 := by
  induction schedule generalizing w a b with
  | nil => exact ⟨⟨rfl, rfl⟩, left, right⟩
  | cons op rest ih =>
      rcases op with op | op
      · have spared := right.aside hp hq vm op
        obtain ⟨result, w', a', hw, ha, left⟩ := (left.operate vm op).split
        rw [hw] at spared
        obtain ⟨⟨lefts, rights⟩, peers⟩ := ih left spared
        simp only [interleave, operateAll, List.filterMap_cons, Sum.getLeft?, Sum.getRight?, hw, ha]
        exact ⟨⟨congrArg (result :: ·) lefts, rights⟩, peers⟩
      · have spared := left.aside hq hp vm op
        obtain ⟨result, w', b', hw, hb, right⟩ := (right.operate vm op).split
        rw [hw] at spared
        obtain ⟨⟨lefts, rights⟩, peers⟩ := ih spared right
        simp only [interleave, operateAll, List.filterMap_cons, Sum.getLeft?, Sum.getRight?, hw, hb]
        exact ⟨⟨lefts, congrArg (result :: ·) rights⟩, peers⟩

theorem interleave_outside {p q k : Bytes} (hp : ¬ p <+: k) (hq : ¬ q <+: k) (base : Layer)
    (free : w.binding = none) (vm : Vm) (schedule : List (Operation ⊕ Operation)) :
    base.get (vm.interleave (.prefixed p base) (.prefixed q base) w schedule).2.heap k =
      base.get w.heap k := by
  induction schedule generalizing w with
  | nil => rfl
  | cons op rest ih =>
      rcases op with op | op
      · obtain ⟨unbound, -, changes, heap⟩ := operate_heap vm (.prefixed p base) free op
        refine (ih unbound).trans ?_
        rw [heap, Layer.get_putAll_prefixed hp]
      · obtain ⟨unbound, -, changes, heap⟩ := operate_heap vm (.prefixed q base) free op
        refine (ih unbound).trans ?_
        rw [heap, Layer.get_putAll_prefixed hq]

/-- Contracts in disjoint namespaces neither observe nor affect each other. Let
two sequences of operations work on one store, or whatever else lies at the
base, each under its own prefix and in any interleaving. Then every operation
gives what it gives when its own sequence runs alone, the keys under each prefix
end up as they do then, and all other keys keep their values. -/
theorem namespaces_apart (vm : Vm) (loader : Loader) (disk : Disk) (heap : Heap) (base : Layer)
    {p q : Bytes} (hp : ¬ p <+: q) (hq : ¬ q <+: p) (schedule : List (Operation ⊕ Operation)) :
    let w := World.initial disk heap (standardResolvers vm.store loader)
    let both := vm.interleave (.prefixed p base) (.prefixed q base) w schedule
    let first := vm.operateAll (.prefixed p base) w (schedule.filterMap Sum.getLeft?)
    let second := vm.operateAll (.prefixed q base) w (schedule.filterMap Sum.getRight?)
    (both.1.filterMap Sum.getLeft? = first.1 ∧ both.1.filterMap Sum.getRight? = second.1) ∧
      (∀ k, p <+: k → base.get both.2.heap k = base.get first.2.heap k) ∧
      (∀ k, q <+: k → base.get both.2.heap k = base.get second.2.heap k) ∧
      ∀ k, ¬ p <+: k → ¬ q <+: k → base.get both.2.heap k = base.get heap k := by
  intro w both first second
  have tame : Tame disk (standardResolvers vm.store loader) w := .initial vm.store loader disk heap
  obtain ⟨results, left, right⟩ := interleave_peers hp hq (Peers.refl tame ⟨rfl, rfl⟩ _)
    (Peers.refl tame ⟨rfl, rfl⟩ _) vm schedule
  refine ⟨results, ?_, ?_, fun k hp hq => interleave_outside hp hq base rfl vm schedule⟩
  · rintro k ⟨j, rfl⟩
    exact congrFun left.view j
  · rintro k ⟨j, rfl⟩
    exact congrFun right.view j

end Vm

namespace Sample

def empty : Loader := fun _ _ => .error .unbound

/-- Two contracts write under one key of their own, by turns. -/
def turns : List (Operation ⊕ Operation) :=
  [.inl (.withState (Guest.set [7] [10] fun _ => .give true)),
    .inr (.withState (Guest.set [7] [20] fun _ => .give true)),
    .inl (.withState (Guest.get [7] fun b => Guest.set [8] b fun _ => .give true))]

end Sample

/-- The first contract reads back what it wrote itself. -/
theorem namespaces_apart_turns :
    ¬ ([1] : Bytes) <+: [2] ∧ ¬ ([2] : Bytes) <+: [1] ∧
      (Layer.memory "chain").get (Sample.host.interleave (.prefixed [1] (.memory "chain"))
        (.prefixed [2] (.memory "chain"))
        (World.initial (Disk.blank []) .empty (Vm.standardResolvers Sample.host.store Sample.empty))
        Sample.turns).2.heap [1, 8] = some [10] := by
  have hp : ¬ ([1] : Bytes) <+: [2] := by decide
  have hq : ¬ ([2] : Bytes) <+: [1] := by decide
  have alone : (Layer.memory "chain").get (Sample.host.operateAll (.prefixed [1] (.memory "chain"))
      (World.initial (Disk.blank []) .empty (Vm.standardResolvers Sample.host.store Sample.empty))
      (Sample.turns.filterMap Sum.getLeft?)).2.heap [1, 8] = some [10] := by decide +kernel
  obtain ⟨-, left, -⟩ := Vm.namespaces_apart Sample.host Sample.empty (Disk.blank []) .empty
    (.memory "chain") hp hq Sample.turns
  exact ⟨hp, hq, (left [1, 8] ⟨[8], rfl⟩).trans alone⟩

end ContractHost
