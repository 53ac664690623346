import ContractHost.Proofs.Resolver
import ContractHost.Proofs.State.Layer
import ContractHost.Proofs.Vm.Lockstep
import ContractHost.Vm.Call

/-!
What a call can learn of the world it runs in: the codes on the disk, the values
in its own scope, and its own tank. Two worlds that agree in these are `Twins`,
each with a scope of its own. They may differ in everything else: in which layer
the scope is, in what other scopes hold, in what else is on the disk, in what the
resolvers have loaded, in other tanks and in notes. No step of a unit tells them
apart, and neither does a whole call.
-/

namespace ContractHost

namespace Vm

/-- The disk of a world, and its resolvers but for what they have loaded, which
is what is on the disk. -/
structure Tame (disk : Disk) (chain : List Resolver) (w : World) : Prop where
  disk_eq : w.disk = disk
  chain_eq : w.resolvers.map Resolver.cold = chain
  faithful : ∀ r ∈ w.resolvers, r.Faithful disk

namespace Tame

variable {disk : Disk} {chain : List Resolver} {w w' : World}

theorem initial (store : CodeStore) (loader : Loader) (disk : Disk) (heap : Heap) :
    Tame disk (standardResolvers store loader)
      (World.initial disk heap (standardResolvers store loader)) where
  disk_eq := rfl
  chain_eq := rfl
  faithful := List.forall_mem_cons.2
    ⟨trivial, List.forall_mem_singleton.2 (Resolver.faithful_cold (.fresh store loader) disk)⟩

theorem congr (t : Tame disk chain w) (disks : w'.disk = w.disk)
    (resolvers : w'.resolvers = w.resolvers) : Tame disk chain w' where
  disk_eq := disks.trans t.disk_eq
  chain_eq := resolvers ▸ t.chain_eq
  faithful := resolvers ▸ t.faithful

theorem resolve (t : Tame disk chain w) (uri : Uri) :
    (w.resolve uri).1 = (Resolver.resolveChain disk uri chain).1 ∧
      Tame disk chain (w.resolve uri).2 := by
  obtain ⟨rfl, rfl, faithful⟩ := t
  obtain ⟨same, kept⟩ := Resolver.resolveChain_snd faithful uri
  exact ⟨(Resolver.resolveChain_cold faithful uri).symm, rfl, same, kept⟩

end Tame

abbrev Idle (w : World) : Prop := w.binding = none ∧ w.guards = ∅

/-- The host state is bound to a guard, and no other guard is live. -/
structure Carries (w : World) (b : Binding) (guard : Guard) : Prop where
  binding : w.binding = some b
  guards : w.guards = (∅ : Table GuardId Guard).insert b.guard guard

/-- Either nothing is going on in two worlds, or one call in each of them, on a scope of its own and
with the same writes so far. -/
inductive Held (l m : Layer) (u v : World) : Prop
  | idle (left : Idle u) (right : Idle v)
  | bound (b : Binding) (writes : Writes) (left : Carries u b ⟨l, writes⟩)
    (right : Carries v b ⟨m, writes⟩)

/-- Two worlds that a call in a scope `l` of the one and a call in a scope `m` of the other cannot
tell apart. -/
structure Twins (disk disk' : Disk) (chain : List Resolver) (l m : Layer) (u v : World) : Prop where
  left : Tame disk chain u
  right : Tame disk' chain v
  codes : ∀ r ∈ chain, r.SameCodes disk disk'
  view : l.get u.heap = m.get v.heap
  held : Held l m u v
  callTank : u.callTank = v.callTank

namespace Carries

variable {w w' : World} {b : Binding} {guard : Guard}

theorem congr (c : Carries w b guard) (binding : w'.binding = w.binding)
    (guards : w'.guards = w.guards) : Carries w' b guard :=
  ⟨binding.trans c.binding, guards.trans c.guards⟩

theorem live (c : Carries w b guard) : w.guards.get? b.guard = some guard := by
  rw [c.guards, Table.get?_insert_self]

theorem gone (c : Carries w b guard) {g : GuardId} (other : g ≠ b.guard) :
    w.guards.get? g = none := by
  rw [c.guards, Table.get?_insert_of_ne _ _ other, Table.get?_empty]

theorem boundTo (c : Carries w b guard) :
    w.boundTo (some .call) = if b.owner = .call then some (.call, b.guard, guard) else none := by
  simp [World.boundTo, c.binding, c.live]

theorem setGuard (c : Carries w b guard) (other : Guard) :
    Carries (w.setGuard b.guard other) b other :=
  ⟨c.binding, by rw [World.setGuard, c.guards, Table.insert_insert_self]⟩

theorem erase (c : Carries w b guard) : w.guards.erase b.guard = ∅ := by
  rw [c.guards, Table.erase_insert _ (Table.get?_empty _)]

end Carries

namespace Held

variable {l m : Layer} {u v u' v' : World}

theorem congr (h : Held l m u v) (binding : u'.binding = u.binding) (guards : u'.guards = u.guards)
    (binding' : v'.binding = v.binding) (guards' : v'.guards = v.guards) : Held l m u' v' := by
  cases h with
  | idle left right =>
      exact .idle ⟨binding.trans left.1, guards.trans left.2⟩
        ⟨binding'.trans right.1, guards'.trans right.2⟩
  | bound b writes left right =>
      exact .bound b writes (left.congr binding guards) (right.congr binding' guards')

end Held

namespace Twins

variable {disk disk' : Disk} {chain : List Resolver} {l m : Layer} {u v : World}

theorem resolve (s : Twins disk disk' chain l m u v) (uri : Uri) :
    InStep (Twins disk disk' chain l m) (u.resolve uri) (v.resolve uri) := by
  obtain ⟨found, left⟩ := s.left.resolve uri
  obtain ⟨found', right⟩ := s.right.resolve uri
  rw [Resolver.resolveChain_congr s.codes] at found
  exact ⟨found.trans found'.symm, left, right, s.codes, s.view, s.held.congr rfl rfl rfl rfl,
    s.callTank⟩

theorem charge (s : Twins disk disk' chain l m u v) (units : UInt64) :
    InStep (Twins disk disk' chain l m) (u.charge .call units) (v.charge .call units) := by
  have same : u.callTank.charge units = v.callTank.charge units := by rw [s.callTank]
  exact ⟨congrArg Prod.snd same, s.left.congr rfl rfl, s.right.congr rfl rfl, s.codes, s.view,
    s.held.congr rfl rfl rfl rfl, congrArg Prod.fst same⟩

/-- The slot and the guards may be changed, as long as it is done in both worlds. -/
theorem rebind (s : Twins disk disk' chain l m u v) {b b' : Option Binding}
    {guards guards' : Table GuardId Guard}
    (held : Held l m { u with binding := b, guards := guards }
      { v with binding := b', guards := guards' }) :
    Twins disk disk' chain l m { u with binding := b, guards := guards }
      { v with binding := b', guards := guards' } :=
  ⟨s.left.congr rfl rfl, s.right.congr rfl rfl, s.codes, s.view, held, s.callTank⟩

theorem dispatch (s : Twins disk disk' chain l m u v) (costs : Gas.Costs) (method : HostMethod)
    (args : Bytes) :
    InStep (Twins disk disk' chain l m) (Bridge.dispatch costs (some .call) method args u)
      (Bridge.dispatch costs (some .call) method args v) := by
  unfold Bridge.dispatch
  cases s.held with
  | idle left right =>
      have shut : u.boundTo (some .call) = none := by simp [World.boundTo, left.1]
      have shut' : v.boundTo (some .call) = none := by simp [World.boundTo, right.1]
      rw [shut, shut']
      exact ⟨rfl, s⟩
  | bound b writes left right =>
      rw [left.boundTo, right.boundTo]
      by_cases opens : b.owner = .call
      · simp only [opens, if_true]
        cases Request.decode? args method with
        | none => exact ⟨rfl, s⟩
        | some q =>
            dsimp only
            rw [Guard.get_congr s.view writes]
            generalize costs.of (q.bytesTouched (Guard.get ⟨m, writes⟩ v.heap)) = units
            -- paying for the request leaves the guards
            have left : Carries (u.charge .call units).2 b ⟨l, writes⟩ := left.congr rfl rfl
            have right : Carries (v.charge .call units).2 b ⟨m, writes⟩ := right.congr rfl rfl
            obtain ⟨paid, u', v', hu, hv, related⟩ := (s.charge units).split
            rw [hu] at left
            rw [hv] at right
            rw [hu, hv]
            rcases paid with refusal | _
            · exact ⟨rfl, related⟩
            · refine ⟨rfl, related.rebind ?_⟩
              cases q.change? with
              | none => exact .bound b writes (left.setGuard _) (right.setGuard _)
              | some change =>
                  exact .bound b (writes.insert change.1 change.2) (left.setGuard _)
                    (right.setGuard _)
      · simp only [opens, if_false]
        exact ⟨rfl, s⟩

theorem answer (s : Twins disk disk' chain l m u v) (costs : Gas.Costs) (call : Call) :
    InStep (Twins disk disk' chain l m) (Bridge.answer costs (some .call) call u)
      (Bridge.answer costs (some .call) call v) := by
  unfold Bridge.answer
  cases HostMethod.parse call.method with
  | error e => exact ⟨rfl, s⟩
  | ok method => exact s.dispatch costs method call.args

theorem lockstep (vm : Vm) (disk disk' : Disk) (chain : List Resolver) (l m : Layer) :
    vm.Lockstep (some .call) (Twins disk disk' chain l m) where
  resolve := resolve
  answer s call := s.answer vm.gas.hostCosts call
  charge s units := ⟨congrArg some (s.charge units).same, (s.charge units).worlds⟩
  tank s := congrArg some s.callTank
  note s _ := ⟨s.left.congr rfl rfl, s.right.congr rfl rfl, s.codes, s.view,
    s.held.congr rfl rfl rfl rfl, s.callTank⟩

theorem bind (s : Twins disk disk' chain l m u v) (owner : TankRef) :
    (∃ b, u.binding = some b ∧ u.bind l owner = .error .alreadyBound ∧
        v.bind m owner = .error .alreadyBound) ∨
      ∃ g u' v', u.bind l owner = .ok (g, u') ∧ v.bind m owner = .ok (g, v') ∧
        Twins disk disk' chain l m u' v' := by
  cases s.held with
  | bound b writes left right =>
      exact .inl ⟨b, left.binding, World.bind_of_bound left.binding _ _,
        World.bind_of_bound right.binding _ _⟩
  | idle left right =>
      have fresh : v.freshGuard = u.freshGuard := by
        rw [World.freshGuard, World.freshGuard, left.2, right.2]
      have bound := World.bind_of_free right.1 m owner
      rw [fresh, right.2] at bound
      refine .inr ⟨u.freshGuard, _, _, World.bind_of_free left.1 _ _, bound, s.rebind ?_⟩
      exact .bound ⟨owner, u.freshGuard⟩ ∅ ⟨rfl, by rw [left.2]⟩ ⟨rfl, rfl⟩

theorem release (s : Twins disk disk' chain l m u v) (g : GuardId) :
    Twins disk disk' chain l m (u.release g) (v.release g) := by
  cases s.held with
  | idle left right =>
      rw [World.release_of_gone (by rw [left.2, Table.get?_empty]),
        World.release_of_gone (by rw [right.2, Table.get?_empty])]
      exact s
  | bound b writes left right =>
      by_cases own : g = b.guard
      · subst own
        rw [World.release_of_live left.live, World.release_of_live right.live]
        exact s.rebind (.idle ⟨rfl, left.erase⟩ ⟨rfl, right.erase⟩)
      · rw [World.release_of_gone (left.gone own), World.release_of_gone (right.gone own)]
        exact s

theorem commit (s : Twins disk disk' chain l m u v) (g : GuardId) :
    Twins disk disk' chain l m (u.commit g) (v.commit g) := by
  cases s.held with
  | idle left right =>
      rw [World.commit_of_gone (by rw [left.2, Table.get?_empty]),
        World.commit_of_gone (by rw [right.2, Table.get?_empty])]
      exact s
  | bound b writes left right =>
      by_cases own : g = b.guard
      · subst own
        rw [World.commit_of_live left.live, World.commit_of_live right.live]
        refine ⟨s.left.congr rfl rfl, s.right.congr rfl rfl, s.codes, ?_,
          .idle ⟨rfl, left.erase⟩ ⟨rfl, right.erase⟩, s.callTank⟩
        rw [Layer.get_putAll, Layer.get_putAll, s.view]
      · rw [World.commit_of_gone (left.gone own), World.commit_of_gone (right.gone own)]
        exact s

theorem prepare (s : Twins disk disk' chain l m u v) (vm : Vm) (r : CallRequest) :
    InStep (Twins disk disk' chain l m) (vm.prepare { r with scope := l } u)
      (vm.prepare { r with scope := m } v) := by
  unfold Vm.prepare
  cases Message.decode r.msg with
  | error e => exact ⟨rfl, s⟩
  | ok args =>
      dsimp only
      obtain ⟨paid, u', v', hu, hv, s⟩ := (s.charge vm.gas.invokeBase).split
      rw [hu, hv]
      rcases paid with refusal | _
      · exact ⟨rfl, s⟩
      · obtain ⟨b, -, hu, hv⟩ | ⟨g, u'', v'', hu, hv, s⟩ := s.bind .call
        · simp only [hu, hv]
          exact ⟨rfl, s⟩
        · simp only [hu, hv]
          exact ⟨rfl, s⟩

theorem conclude (s : Twins disk disk' chain l m u v) (rate : Gas.Rate) (g : GuardId)
    (raw : Bytes) :
    InStep (Twins disk disk' chain l m) (Vm.conclude rate g raw u)
      (Vm.conclude rate g raw v) := by
  unfold Vm.conclude
  obtain ⟨paid, u', v', hu, hv, s⟩ :=
    (s.charge (rate.mulFloor (UInt64.ofNat raw.length))).split
  rw [hu, hv]
  rcases paid with refusal | _
  · exact ⟨rfl, s.release g⟩
  · dsimp only
    cases Wire.ofMsgpack? (α := Response) raw with
    | none => exact ⟨rfl, s.release g⟩
    | some response => exact ⟨rfl, s.commit g⟩

theorem perform (s : Twins disk disk' chain l m u v) (vm : Vm) (r : CallRequest) :
    InStep (Twins disk disk' chain l m) (vm.perform { r with scope := l } u)
      (vm.perform { r with scope := m } v) := by
  unfold Vm.perform
  obtain ⟨prepared, u', v', hu, hv, s⟩ := (s.prepare vm r).split
  rw [hu, hv]
  rcases prepared with e | ⟨call, g⟩
  · exact ⟨rfl, s⟩
  · dsimp only
    obtain ⟨outcome, u', v', hu, hv, s⟩ := ((lockstep vm disk disk' chain l m).invoke vm.maxNesting
      (Uri.store r.checksum) call s).split
    rw [hu, hv]
    dsimp only
    cases contain outcome with
    | error e => exact ⟨by rw [s.callTank], s.release g⟩
    | ok raw => exact s.conclude r.rate g raw

end Twins

/-- Two worlds in which nothing is going on, and which agree in what a call can learn, made in a
scope `l` of the one and in a scope `m` of the other. -/
structure Counterparts (disk disk' : Disk) (chain : List Resolver) (l m : Layer) (u v : World) :
    Prop where
  left : Tame disk chain u
  right : Tame disk' chain v
  codes : ∀ r ∈ chain, r.SameCodes disk disk'
  view : l.get u.heap = m.get v.heap
  idle_left : Idle u
  idle_right : Idle v

namespace Counterparts

variable {disk disk' : Disk} {chain : List Resolver} {l m : Layer} {u v : World}

theorem start (s : Counterparts disk disk' chain l m u v) (t : Gas.Tank) :
    Twins disk disk' chain l m { u with callTank := t } { v with callTank := t } where
  left := s.left.congr rfl rfl
  right := s.right.congr rfl rfl
  codes := s.codes
  view := s.view
  held := .idle s.idle_left s.idle_right
  callTank := rfl

theorem call (s : Counterparts disk disk' chain l m u v) (vm : Vm) (r : CallRequest) :
    InStep (Twins disk disk' chain l m) (vm.call { r with scope := l } u)
      (vm.call { r with scope := m } v) := by
  obtain ⟨result, u', v', hu, hv, s⟩ := ((s.start (.new r.limit r.meter)).perform vm r).split
  simp only [Vm.call, hu, hv]
  cases result with
  | error e => exact ⟨by rw [s.callTank], s⟩
  | ok response => exact ⟨by rw [s.callTank], s⟩

theorem withState (s : Counterparts disk disk' chain l m u v) (vm : Vm) (p : Program) :
    InStep (Twins disk disk' chain l m) (vm.withState l p u) (vm.withState m p v) := by
  unfold Vm.withState
  obtain ⟨b, bound, -, -⟩ | ⟨g, u', v', hu, hv, s⟩ :=
    (s.start (.new Gas.greatest 0)).bind .call
  · exact absurd (bound.symm.trans s.idle_left.1) nofun
  · rw [hu, hv]
    dsimp only
    obtain ⟨outcome, u', v', hu, hv, s⟩ :=
      ((Twins.lockstep vm disk disk' chain l m).runProgram p s).split
    rw [hu, hv]
    rcases outcome with (e | result) | message
    · exact ⟨rfl, s.release g⟩
    · exact ⟨rfl, s.commit g⟩
    · exact ⟨rfl, s.release g⟩

end Counterparts

end Vm

end ContractHost
