import ContractHost.Proofs.Bridge.Map
import ContractHost.Proofs.Vm.Writes

/-!
The protocol of the bridge: who may bind it, who gets through to it, and what
becomes of the writes.

A run is any sequence of attempts to bind, of guards that are committed or
dropped, of requests made to the bridge itself, and of units that are invoked
with any tank or with none. Beside the run a ledger is kept, which knows no slot
and no overlay: it holds the heap, and for the guard that is live its owner, its
scope and the requests that were answered since it came into being. `Shows` says
that a world is as its ledger has it. Every step keeps that, so what the ledger
forbids never happens: a guard that is dropped takes its requests with it. What
the live guard shows, and what its scope shows once it is committed, is the map
that its requests come to (`Tenure.shown`), one after the other.
-/

namespace ContractHost

inductive BridgeStep where
  | bind (scope : Layer) (owner : TankRef)
  | commit (g : GuardId)
  | drop (g : GuardId)
  /-- A request made to the bridge itself. -/
  | dispatch (invoker : Option TankRef) (method : HostMethod) (args : Bytes)
  /-- An invocation of a unit, which may invoke others and the bridge. -/
  | invoke (invoker : Option TankRef) (uri : Uri) (call : Call)

/-- The tank with which the requests of a step are made. -/
def BridgeStep.invoker : BridgeStep → Option TankRef
  | .dispatch invoker _ _ => invoker
  | .invoke invoker _ _ => invoker
  | _ => none

namespace Vm

def step (vm : Vm) (w : World) : BridgeStep → World
  | .bind scope owner =>
    match w.bind scope owner with
    | .ok (_, w) => w
    | .error _ => w
  | .commit g => w.commit g
  | .drop g => w.release g
  | .dispatch invoker method args => (Bridge.dispatch vm.gas.hostCosts invoker method args w).2
  | .invoke invoker uri call => (vm.invoke invoker vm.maxNesting uri call w).2

def stepLog (vm : Vm) (w : World) : BridgeStep → List LogEntry
  | .dispatch invoker method args =>
    let (answer, left) := Bridge.dispatch vm.gas.hostCosts invoker method args w
    [.request ⟨method.name, args, none⟩ w answer left]
  | .invoke invoker uri call => vm.log invoker vm.maxNesting uri call w
  | _ => []

def play (vm : Vm) (w : World) (steps : List BridgeStep) : World := steps.foldl vm.step w

end Vm

/-- A guard as the ledger has it: its number, the tank that it was bound to, its
scope, and the requests answered since then, in their order. -/
structure Tenure where
  guard : GuardId
  owner : TankRef
  scope : Layer
  requests : List Request

namespace Tenure

def changes (t : Tenure) : List Change := t.requests.filterMap Request.change?

/-- The guard of a tenure: it holds what its changes come to, and nothing else. -/
def toGuard (t : Tenure) : Guard := Guard.applyAll ⟨t.scope, ∅⟩ t.changes

/-- The map that the requests of a tenure make of what its scope holds. -/
def shown (t : Tenure) (h : Heap) : Bytes → Option Bytes :=
  Request.allOnMap (t.scope.get h) t.requests

theorem get_toGuard (t : Tenure) (h : Heap) : t.toGuard.get h = t.shown h := by
  rw [toGuard, Guard.get_applyAll, shown, Request.allOnMap_eq]
  rfl

theorem get_putAll (t : Tenure) (h : Heap) :
    t.scope.get (t.scope.putAll h t.changes) = t.shown h := by
  rw [Layer.get_putAll, shown, Request.allOnMap_eq]
  rfl

end Tenure

/-- The heap, and the guard that is live if there is one. -/
structure Ledger where
  heap : Heap
  held : Option Tenure

namespace Ledger

def OwnedBy (l : Ledger) (invoker : Option TankRef) : Prop :=
  ∃ t, l.held = some t ∧ invoker = some t.owner

/-- A new guard is entered, unless there is one. -/
def opened (l : Ledger) (g : GuardId) (owner : TankRef) (scope : Layer) : Ledger :=
  match l.held with
  | some _ => l
  | none => { l with held := some ⟨g, owner, scope, []⟩ }

def committed (l : Ledger) (g : GuardId) : Ledger :=
  match l.held with
  | some t => if t.guard = g then ⟨t.scope.putAll l.heap t.changes, none⟩ else l
  | none => l

def dropped (l : Ledger) (g : GuardId) : Ledger :=
  match l.held with
  | some t => if t.guard = g then { l with held := none } else l
  | none => l

/-- Requests that were answered go to the guard, if its owner made them. -/
def gathered (l : Ledger) (invoker : Option TankRef) (requests : List Request) : Ledger :=
  match l.held with
  | some t =>
    if invoker = some t.owner then
      { l with held := some { t with requests := t.requests ++ requests } }
    else l
  | none => l

variable {l : Ledger}

theorem committed_of_held {t : Tenure} (held : l.held = some t) :
    l.committed t.guard = ⟨t.scope.putAll l.heap t.changes, none⟩ := by
  simp [committed, held]

theorem committed_of_gone {g : GuardId} (other : ∀ t, l.held = some t → t.guard ≠ g) :
    l.committed g = l := by
  unfold committed
  split
  · next t held => exact if_neg (other t held)
  · rfl

theorem dropped_of_held {t : Tenure} (held : l.held = some t) :
    l.dropped t.guard = { l with held := none } := by
  simp [dropped, held]

theorem dropped_of_gone {g : GuardId} (other : ∀ t, l.held = some t → t.guard ≠ g) :
    l.dropped g = l := by
  unfold dropped
  split
  · next t held => exact if_neg (other t held)
  · rfl

theorem gathered_of_owner {t : Tenure} (held : l.held = some t) (requests : List Request) :
    l.gathered (some t.owner) requests =
      { l with held := some { t with requests := t.requests ++ requests } } := by
  simp [gathered, held]

theorem gathered_of_alien {invoker : Option TankRef} (alien : ¬ l.OwnedBy invoker)
    (requests : List Request) : l.gathered invoker requests = l := by
  unfold gathered
  split
  · next t held => exact if_neg fun owns => alien ⟨t, held, owns⟩
  · rfl

def next (vm : Vm) (w : World) (l : Ledger) : BridgeStep → Ledger
  | .bind scope owner => l.opened w.freshGuard owner scope
  | .commit g => l.committed g
  | .drop g => l.dropped g
  | .dispatch invoker method args =>
    l.gathered invoker (LogEntry.requests (vm.stepLog w (.dispatch invoker method args)))
  | .invoke invoker uri call =>
    l.gathered invoker (LogEntry.requests (vm.stepLog w (.invoke invoker uri call)))

def after (vm : Vm) (w : World) (l : Ledger) : List BridgeStep → Ledger
  | [] => l
  | s :: rest => after vm (vm.step w s) (l.next vm w s) rest

end Ledger

/-- At most one guard is live, and the host state is bound exactly if one is. -/
def World.OneGuard (w : World) : Prop :=
  w.guards.size ≤ 1 ∧ (w.isBound ↔ w.guards.size = 1)

/-- A world is as its ledger has it. -/
structure World.Shows (w : World) (l : Ledger) : Prop where
  heap : w.heap = l.heap
  binding : w.binding = l.held.map fun t => ⟨t.owner, t.guard⟩
  guards : w.guards =
    match l.held with
    | some t => (∅ : Table GuardId Guard).insert t.guard t.toGuard
    | none => ∅

namespace World.Shows

variable {w : World} {l : Ledger}

theorem of_held (s : w.Shows l) {t : Tenure} (held : l.held = some t) :
    w.binding = some ⟨t.owner, t.guard⟩ ∧
      w.guards = (∅ : Table GuardId Guard).insert t.guard t.toGuard := by
  obtain ⟨-, binding, guards⟩ := s
  rw [held] at binding guards
  exact ⟨binding, guards⟩

theorem of_free (s : w.Shows l) (free : l.held = none) : w.binding = none ∧ w.guards = ∅ := by
  obtain ⟨-, binding, guards⟩ := s
  rw [free] at binding guards
  exact ⟨binding, guards⟩

theorem oneGuard (s : w.Shows l) : w.OneGuard := by
  unfold OneGuard isBound
  cases held : l.held with
  | none =>
      rw [(s.of_free held).1, (s.of_free held).2]
      exact ⟨Nat.zero_le 1, iff_of_false Bool.false_ne_true Nat.zero_ne_one⟩
  | some t =>
      rw [(s.of_held held).1, (s.of_held held).2]
      exact ⟨Nat.le_refl 1, iff_of_true rfl rfl⟩

theorem live (s : w.Shows l) {t : Tenure} (held : l.held = some t) :
    w.guards.get? t.guard = some t.toGuard := by
  rw [(s.of_held held).2, Table.get?_insert_self]

theorem gone (s : w.Shows l) {g : GuardId} (other : ∀ t, l.held = some t → t.guard ≠ g) :
    w.guards.get? g = none := by
  cases held : l.held with
  | none => rw [(s.of_free held).2, Table.get?_empty]
  | some t =>
      rw [(s.of_held held).2, Table.get?_insert_of_ne _ _ (other t held).symm, Table.get?_empty]

theorem boundTo_owner (s : w.Shows l) {t : Tenure} (held : l.held = some t) :
    w.boundTo (some t.owner) = some (t.owner, t.guard, t.toGuard) :=
  boundTo_eq_some_iff.2 ⟨rfl, (s.of_held held).1, s.live held⟩

theorem boundTo_alien (s : w.Shows l) {invoker : Option TankRef} (alien : ¬ l.OwnedBy invoker) :
    w.boundTo invoker = none := by
  cases reached : w.boundTo invoker with
  | none => rfl
  | some b =>
      obtain ⟨r, g, guard⟩ := b
      obtain ⟨carried, opened, -⟩ := boundTo_eq_some_iff.1 reached
      cases held : l.held with
      | none => exact absurd (opened.symm.trans (s.of_free held).1) nofun
      | some t =>
          cases opened.symm.trans (s.of_held held).1
          exact absurd ⟨t, held, carried⟩ alien

theorem view_eq (s : w.Shows l) {t : Tenure} (held : l.held = some t) :
    w.view = t.shown w.heap := by
  rw [view_of_bound (s.boundTo_owner held), t.get_toGuard]

theorem opened (s : w.Shows l) (vm : Vm) (scope : Layer) (owner : TankRef) :
    (vm.step w (.bind scope owner)).Shows (l.opened w.freshGuard owner scope) := by
  cases held : l.held with
  | none =>
      simp only [Vm.step, World.bind_of_free (s.of_free held).1, Ledger.opened, held]
      exact ⟨s.heap, rfl, by rw [(s.of_free held).2]; rfl⟩
  | some t =>
      simp only [Vm.step, World.bind_of_bound (s.of_held held).1, Ledger.opened, held]
      exact s

theorem committed (s : w.Shows l) (vm : Vm) (g : GuardId) :
    (vm.step w (.commit g)).Shows (l.committed g) := by
  show (w.commit g).Shows _
  by_cases held : ∃ t, l.held = some t ∧ t.guard = g
  · obtain ⟨t, held, rfl⟩ := held
    rw [commit_of_live (s.live held), Ledger.committed_of_held held]
    refine ⟨?_, rfl, ?_⟩
    · exact (t.scope.putAll_gathered w.heap ∅ t.changes).trans (by rw [s.heap]; rfl)
    · exact (s.of_held held).2 ▸ Table.erase_insert _ (Table.get?_empty _)
  · have other : ∀ t, l.held = some t → t.guard ≠ g := fun t h same => held ⟨t, h, same⟩
    rw [commit_of_gone (s.gone other), Ledger.committed_of_gone other]
    exact s

theorem dropped (s : w.Shows l) (vm : Vm) (g : GuardId) :
    (vm.step w (.drop g)).Shows (l.dropped g) := by
  show (w.release g).Shows _
  by_cases held : ∃ t, l.held = some t ∧ t.guard = g
  · obtain ⟨t, held, rfl⟩ := held
    rw [release_of_live (s.live held), Ledger.dropped_of_held held]
    exact ⟨s.heap, rfl, (s.of_held held).2 ▸ Table.erase_insert _ (Table.get?_empty _)⟩
  · have other : ∀ t, l.held = some t → t.guard ≠ g := fun t h same => held ⟨t, h, same⟩
    rw [release_of_gone (s.gone other), Ledger.dropped_of_gone other]
    exact s

/-- What an invoker's units do is entered under the guard that the invoker owns. -/
theorem gathered (s : w.Shows l) {invoker : Option TankRef} {log : List LogEntry} {w' : World}
    (wrote : Wrote invoker w log w') : w'.Shows (l.gathered invoker (LogEntry.requests log)) := by
  by_cases owned : l.OwnedBy invoker
  · obtain ⟨t, held, rfl⟩ := owned
    rw [Ledger.gathered_of_owner held]
    refine ⟨wrote.heap.trans s.heap, wrote.binding.trans (s.of_held held).1, ?_⟩
    rw [wrote.guards, guardsAfter_of_bound (s.boundTo_owner held), (s.of_held held).2,
      Table.insert_insert_self, LogEntry.changes_eq]
    simp only [Tenure.toGuard, Tenure.changes, List.filterMap_append, Guard.applyAll_append]
  · rw [Ledger.gathered_of_alien owned]
    refine ⟨wrote.heap.trans s.heap, wrote.binding.trans s.binding, ?_⟩
    rw [wrote.guards, guardsAfter_of_shut (s.boundTo_alien owned), s.guards]

end World.Shows

/-- A run of an invoker's units, seen request by request: each finds the world
that the entries before it have left, and is answered as the bridge answers it
there. -/
structure Watched (costs : Gas.Costs) (invoker : Option TankRef) (w : World) (log : List LogEntry)
    (w' : World) : Prop where
  wrote : Wrote invoker w log w'
  answers {before after : List LogEntry} {call : Call} {found left : World}
    {answer : Except InvokeError Bytes} :
    log = before ++ .request call found answer left :: after →
      Wrote invoker w before found ∧ Bridge.Answers costs invoker call found answer left

namespace Watched

variable {costs : Gas.Costs} {invoker : Option TankRef}

theorem of_quiet {w w' : World} {log : List LogEntry} (wrote : Wrote invoker w log w')
    (quiet : ∀ call found answer left, .request call found answer left ∉ log) :
    Watched costs invoker w log w' where
  wrote := wrote
  answers made := absurd (made ▸ List.mem_append_right _ List.mem_cons_self) (quiet _ _ _ _)

theorem request {call : Call} {w w' : World} {answer : Except InvokeError Bytes}
    (a : Bridge.Answers costs invoker call w answer w') :
    Watched costs invoker w [.request call w answer w'] w' where
  wrote := Wrote.request a
  answers made := by
    obtain ⟨rfl, entries⟩ | ⟨-, none⟩ := List.singleton_eq_append_iff.1 made
    · cases entries
      exact ⟨.of_same rfl rfl rfl rfl, a⟩
    · cases none

theorem trans {u v w : World} {l m : List LogEntry} (first : Watched costs invoker u l v)
    (second : Watched costs invoker v m w) : Watched costs invoker u (l ++ m) w where
  wrote := first.wrote.trans second.wrote
  answers made := by
    -- the entry stands in the second log or in the first; it may be where the second begins
    obtain ⟨mid, rfl, rest⟩ | ⟨mid, whole, rest⟩ := List.append_eq_append_iff.1 made
    · obtain ⟨wrote, a⟩ := second.answers rest
      exact ⟨first.wrote.trans wrote, a⟩
    · obtain ⟨rfl, rest⟩ | ⟨mid, rfl, -⟩ := List.cons_eq_append_iff.1 rest
      · obtain ⟨wrote, a⟩ := second.answers (show m = [] ++ _ from rest.symm)
        obtain rfl : l = _ := whole.trans (List.append_nil _)
        exact ⟨List.append_nil l ▸ first.wrote.trans wrote, a⟩
      · exact first.answers whole

theorem stepwise (vm : Vm) (invoker : Option TankRef) :
    vm.Stepwise invoker (Watched vm.gas.hostCosts invoker) where
  refl w := .of_quiet ((Wrote.stepwise vm invoker).refl w) fun _ _ _ _ => List.not_mem_nil
  trans := trans
  resolve uri w :=
    .of_quiet ((Wrote.stepwise vm invoker).resolve uri w) fun _ _ _ _ => List.not_mem_nil
  request := request
  charge units w := by
    refine .of_quiet ((Wrote.stepwise vm invoker).charge units w) fun _ _ _ _ mem => ?_
    cases List.mem_singleton.1 mem
  note n w := .of_quiet ((Wrote.stepwise vm invoker).note n w) fun _ _ _ _ => List.not_mem_nil

end Watched

namespace Vm

/-- A request that is made to the bridge itself is an invocation of the bridge. -/
theorem dispatch_eq_answer (costs : Gas.Costs) (invoker : Option TankRef) (method : HostMethod)
    (args : Bytes) (w : World) :
    Bridge.dispatch costs invoker method args w =
      Bridge.answer costs invoker ⟨method.name, args, none⟩ w := by
  simp only [Bridge.answer, method.parse_name]

theorem watched_dispatch (vm : Vm) (w : World) (invoker : Option TankRef) (method : HostMethod)
    (args : Bytes) :
    Watched vm.gas.hostCosts invoker w (vm.stepLog w (.dispatch invoker method args))
      (vm.step w (.dispatch invoker method args)) := by
  simp only [stepLog, step, dispatch_eq_answer]
  exact .request (Bridge.answers _ _ _ _)

theorem watched_invoke (vm : Vm) (w : World) (invoker : Option TankRef) (uri : Uri) (call : Call) :
    Watched vm.gas.hostCosts invoker w (vm.stepLog w (.invoke invoker uri call))
      (vm.step w (.invoke invoker uri call)) :=
  (Watched.stepwise vm invoker).invoke vm.maxNesting uri call w

/-- A step keeps a world as its ledger has it. -/
theorem shows_step (vm : Vm) {w : World} {l : Ledger} (shown : w.Shows l) (s : BridgeStep) :
    (vm.step w s).Shows (l.next vm w s) := by
  cases s with
  | bind scope owner => exact shown.opened vm scope owner
  | commit g => exact shown.committed vm g
  | drop g => exact shown.dropped vm g
  | dispatch invoker method args => exact shown.gathered (vm.watched_dispatch w _ _ _).wrote
  | invoke invoker uri call => exact shown.gathered (vm.watched_invoke w _ _ _).wrote

theorem shows_play (vm : Vm) {w : World} {l : Ledger} (shown : w.Shows l)
    (steps : List BridgeStep) : (vm.play w steps).Shows (l.after vm w steps) := by
  induction steps generalizing w l with
  | nil => exact shown
  | cons s rest ih => exact ih (vm.shows_step shown s)

theorem request_of_stepLog (vm : Vm) {w : World} {s : BridgeStep} {before after : List LogEntry}
    {call : Call} {found left : World} {answer : Except InvokeError Bytes}
    (made : vm.stepLog w s = before ++ .request call found answer left :: after) :
    Wrote s.invoker w before found ∧
      Bridge.Answers vm.gas.hostCosts s.invoker call found answer left := by
  cases s with
  | bind scope owner => exact absurd made (by simp [stepLog])
  | commit g => exact absurd made (by simp [stepLog])
  | drop g => exact absurd made (by simp [stepLog])
  | dispatch invoker method args => exact (vm.watched_dispatch w _ _ _).answers made
  | invoke invoker uri call => exact (vm.watched_invoke w _ _ _).answers made

end Vm

/-- A request for one of the five methods is told that nothing is bound exactly
if it does not get through. -/
theorem Bridge.Answers.unbound_iff {costs : Gas.Costs} {invoker : Option TankRef} {call : Call}
    {w w' : World} {answer : Except InvokeError Bytes} {method : HostMethod}
    (a : Answers costs invoker call w answer w')
    (known : HostMethod.parse call.method = .ok method) :
    (answer = .error .unbound ↔ w.boundTo invoker = none) ∧
      (answer = .error .unbound → w' = w) := by
  cases a with
  | unknown noMethod => cases known.symm.trans noMethod
  | unbound known shut => exact ⟨iff_of_true rfl shut, fun _ => rfl⟩
  | malformed known bound bad => exact ⟨iff_of_false nofun (bound ▸ nofun), nofun⟩
  | refused bound made dear => exact ⟨iff_of_false nofun (bound ▸ nofun), nofun⟩
  | done bound made paid => exact ⟨iff_of_false nofun (bound ▸ nofun), nofun⟩

/-- How a request is dealt with that finds the world of a ledger. -/
structure Bridge.Dealt (costs : Gas.Costs) (l : Ledger) (invoker : Option TankRef) (call : Call)
    (found : World) (answer : Except InvokeError Bytes) (left : World) : Prop where
  unknown (none : ∀ m : HostMethod, call.method ≠ m.name) :
    answer = .error (.unknownMethod call.method) ∧ left = found
  /-- A request for one of the five methods gets through exactly if it carries
  the tank of the live guard. Otherwise it is told that nothing is bound,
  whatever its arguments are, and nothing changes. -/
  unbound {m : HostMethod} (known : call.method = m.name) :
    (answer ≠ .error .unbound ↔ l.OwnedBy invoker) ∧ (answer = .error .unbound → left = found)
  malformed {m : HostMethod} (known : call.method = m.name) (owned : l.OwnedBy invoker)
    (bad : call.request? = none) : answer = .error .malformed ∧ left = found
  /-- A request that the owner of the guard spells out reaches the guard if its
  price is admitted, and nothing but the price keeps it from that. -/
  carried {q : Request} {t : Tenure} {tank : Gas.Tank} (held : l.held = some t)
    (owner : invoker = some t.owner) (spelled : call.Spells q)
    (paid : (found.tank t.owner).charge (costs.of (q.weight found.view)) = (tank, .ok ())) :
    Reached q found answer left ∧ left.tank t.owner = tank
  refused {q : Request} {t : Tenure} {tank : Gas.Tank} {refusal : Gas.Refusal}
    (held : l.held = some t) (owner : invoker = some t.owner) (spelled : call.Spells q)
    (dear : (found.tank t.owner).charge (costs.of (q.weight found.view)) =
      (tank, .error refusal)) :
    answer = .error (.outOfGas refusal) ∧ left = found.setTank tank t.owner
  /-- Nothing else is answered. -/
  answered {b : Bytes} (done : answer = .ok b) :
    l.OwnedBy invoker ∧ ∃ q, call.request? = some q ∧ Reached q found answer left
  /-- A request that is not answered changes no guard and no scope. -/
  failed {e : InvokeError} (bad : answer = .error e) :
    left.heap = found.heap ∧ left.binding = found.binding ∧ left.guards = found.guards

/-- What the bridge promises in a world whose history is in a ledger. -/
structure Bridge.Protocol (vm : Vm) (w : World) (l : Ledger) : Prop where
  /-- The slot, the guards and the heap are as the ledger has them. -/
  shows : w.Shows l
  oneGuard : w.OneGuard
  /-- The live guard shows what its requests make of its scope. -/
  sees {t : Tenure} (held : l.held = some t) : w.view = t.shown w.heap
  /-- An attempt to bind what is bound fails, and nothing comes of it. -/
  exclusive (scope : Layer) (owner : TankRef) (bound : w.isBound) :
    w.bind scope owner = .error .alreadyBound ∧ vm.step w (.bind scope owner) = w
  /-- A new guard belongs to the tank that it was bound to, and holds no writes. -/
  fresh (scope : Layer) (owner : TankRef) (free : ¬ w.isBound) :
    ∃ g w', w.bind scope owner = .ok (g, w') ∧ w'.binding = some ⟨owner, g⟩ ∧
      w'.guards.get? g = some ⟨scope, ∅⟩ ∧ w'.pending g = 0 ∧ w'.heap = w.heap
  /-- Only a commit reaches the heap, with what was answered under its guard. -/
  commits (g : GuardId) : (vm.step w (.commit g)).heap =
    match l.held with
    | some t => if t.guard = g then t.scope.putAll w.heap t.changes else w.heap
    | none => w.heap
  /-- The scope of a guard that is committed then shows what the guard showed. -/
  lands {t : Tenure} (held : l.held = some t) :
    t.scope.get (vm.step w (.commit t.guard)).heap = t.shown w.heap
  keeps (s : BridgeStep) (other : ∀ g, s ≠ .commit g) : (vm.step w s).heap = w.heap
  /-- Every request finds the world of its ledger, which has the requests before
  it, and leaves the world of the ledger that has it too. -/
  requests {s : BridgeStep} {before after : List LogEntry} {call : Call} {found left : World}
    {answer : Except InvokeError Bytes}
    (made : vm.stepLog w s = before ++ .request call found answer left :: after) :
    let here := l.gathered s.invoker (LogEntry.requests before)
    let next := l.gathered s.invoker
      (LogEntry.requests (before ++ [.request call found answer left]))
    found.Shows here ∧ left.Shows next ∧ found.OneGuard ∧ left.OneGuard ∧
      Bridge.Answers vm.gas.hostCosts s.invoker call found answer left ∧
      Bridge.Dealt vm.gas.hostCosts here s.invoker call found answer left

namespace World.Shows

variable {w : World} {l : Ledger}

theorem isBound_iff (s : w.Shows l) : w.isBound ↔ ∃ t, l.held = some t := by
  rw [isBound, s.binding, Option.isSome_map, Option.isSome_iff_exists]

theorem boundTo_eq_none_iff (s : w.Shows l) (invoker : Option TankRef) :
    w.boundTo invoker = none ↔ ¬ l.OwnedBy invoker := by
  constructor
  · rintro shut ⟨t, held, rfl⟩
    exact absurd ((s.boundTo_owner held).symm.trans shut) nofun
  · exact s.boundTo_alien

theorem ownedBy_of_bound (s : w.Shows l) {invoker : Option TankRef} {b : TankRef × GuardId × Guard}
    (bound : w.boundTo invoker = some b) : l.OwnedBy invoker :=
  Classical.not_not.1 fun alien => absurd (bound.symm.trans (s.boundTo_alien alien)) nofun

theorem dealt (s : w.Shows l) {costs : Gas.Costs} {invoker : Option TankRef} {call : Call}
    {answer : Except InvokeError Bytes} {w' : World}
    (a : Bridge.Answers costs invoker call w answer w') :
    Bridge.Dealt costs l invoker call w answer w' where
  unknown none := a.unique (.unknown (HostMethod.parse_of_ne none))
  unbound known := by
    obtain ⟨unbound, same⟩ := a.unbound_iff (known ▸ HostMethod.parse_name _)
    refine ⟨?_, same⟩
    rw [ne_eq, unbound, s.boundTo_eq_none_iff, Classical.not_not]
  malformed known owned bad := by
    obtain ⟨t, held, rfl⟩ := owned
    exact a.unique (.malformed (known ▸ HostMethod.parse_name _) (s.boundTo_owner held) bad)
  carried {q t tank} held owner spelled paid := by
    subst owner
    have bound := s.boundTo_owner held
    rw [← q.bytesTouched_eq_weight, view_of_bound bound] at paid
    obtain ⟨rfl, rfl⟩ := a.unique (.done bound (Call.request?_of_spells spelled) paid)
    refine ⟨.of_bound bound tank q, ?_⟩
    rw [tank_setGuard, tank_setTank_self]
  refused {q t tank refusal} held owner spelled dear := by
    subst owner
    have bound := s.boundTo_owner held
    rw [← q.bytesTouched_eq_weight, view_of_bound bound] at dear
    exact a.unique (.refused bound (Call.request?_of_spells spelled) dear)
  answered done := by
    cases a with
    | done bound made paid =>
        cases done
        exact ⟨s.ownedBy_of_bound bound, _, made, .of_bound bound _ _⟩
    | _ => cases done
  failed bad := by
    cases a with
    | done bound made paid => cases bad
    | refused bound made dear => exact ⟨heap_setTank .., binding_setTank .., guards_setTank ..⟩
    | _ => exact ⟨rfl, rfl, rfl⟩

theorem protocol (s : w.Shows l) (vm : Vm) : Bridge.Protocol vm w l where
  shows := s
  oneGuard := s.oneGuard
  sees := s.view_eq
  exclusive scope owner bound := by
    obtain ⟨t, held⟩ := s.isBound_iff.1 bound
    have refused := bind_of_bound (s.of_held held).1 scope owner
    exact ⟨refused, by simp only [Vm.step, refused]⟩
  fresh scope owner free := by
    have free : w.binding = none := by simpa [isBound] using free
    refine ⟨_, _, bind_of_free free scope owner, rfl, Table.get?_insert_self _ _ _, ?_, rfl⟩
    simp only [pending, Table.get?_insert_self]
    rfl
  commits g := by
    rw [(s.committed vm g).heap, Ledger.committed, s.heap]
    cases l.held with
    | none => rfl
    | some t =>
        dsimp only
        split <;> rfl
  lands {t} held := by
    rw [(s.committed vm t.guard).heap, Ledger.committed_of_held held, t.get_putAll, s.heap]
  keeps step other := by
    cases step with
    | bind scope owner =>
        rw [(s.opened vm scope owner).heap, Ledger.opened, s.heap]
        split <;> rfl
    | commit g => exact absurd rfl (other g)
    | drop g =>
        rw [(s.dropped vm g).heap, Ledger.dropped, s.heap]
        split
        · split <;> rfl
        · rfl
    | dispatch invoker method args => exact (vm.watched_dispatch w _ _ _).wrote.heap
    | invoke invoker uri call => exact (vm.watched_invoke w _ _ _).wrote.heap
  requests made := by
    obtain ⟨wrote, a⟩ := vm.request_of_stepLog made
    have found := s.gathered wrote
    have left := s.gathered (wrote.trans (Wrote.request a))
    exact ⟨found, left, found.oneGuard, left.oneGuard, a, found.dealt a⟩

end World.Shows

/-- What becomes of a request that is made to the bridge itself. -/
theorem Bridge.Protocol.dispatched {vm : Vm} {w : World} {l : Ledger} (p : Bridge.Protocol vm w l)
    (invoker : Option TankRef) (method : HostMethod) (args : Bytes) :
    let done := Bridge.dispatch vm.gas.hostCosts invoker method args w
    Bridge.Dealt vm.gas.hostCosts (l.gathered invoker []) invoker ⟨method.name, args, none⟩ w
      done.1 done.2 := by
  have made : vm.stepLog w (.dispatch invoker method args) =
      [] ++ .request ⟨method.name, args, none⟩ w _ _ :: [] := rfl
  obtain ⟨-, -, -, -, -, dealt⟩ := p.requests made
  exact dealt

/-- The protocol of the bridge. Whatever is done, in whatever order and with
whatever tanks: at most one guard is live and the host state is bound exactly if
one is, a second guard is refused without consequence, a new guard holds no
writes, the requests of its owner reach it and nobody else's do, and what a
dropped guard held never reaches the heap. -/
theorem bridge_protocol (vm : Vm) (disk : Disk) (heap : Heap) (resolvers : List Resolver)
    (tank : Gas.Tank) (tanks : Table String Gas.Tank) (steps : List BridgeStep) :
    let start : World := { World.initial disk heap resolvers with callTank := tank, tanks := tanks }
    Bridge.Protocol vm (vm.play start steps) (Ledger.after vm start ⟨heap, none⟩ steps) := by
  intro start
  have shown : start.Shows ⟨heap, none⟩ := ⟨rfl, rfl, rfl⟩
  exact (vm.shows_play shown steps).protocol vm

namespace Sample

def scribe : Guest := fun _ => .invoke Bridge.uri (Request.set [2] [5]).call fun _ => .give true

def desks : List Resolver :=
  [.named Uri.hostAuthority (Table.ofList [("scribe", .guest scribe), (Bridge.unitName, .bridge)])]

def equals : Table String Gas.Tank := Table.ofList [("a", .new 100 0), ("b", .new 100 0)]

def office : Vm where
  gas := ⟨0, 5, 1⟩
  store := ⟨Path.ofText "data"⟩
  maxNesting := 2

/-- The first tank binds the bridge and writes, but its guard is dropped; then it is the turn of
the second. -/
def rivalry : List BridgeStep :=
  [.bind (.memory "file") (.named "a"),
    .dispatch (some (.named "b")) .set (Request.set [1] [8]).args,
    .dispatch (some (.named "a")) .set (Request.set [1] [9]).args,
    .drop 0,
    .bind (.memory "file") (.named "b"),
    .invoke (some (.named "b")) (Uri.host "scribe") ⟨"run", [], none⟩,
    .commit 0]

def office.opening : World :=
  { World.initial (Disk.blank []) .empty desks with callTank := .new 0 0, tanks := equals }

def office.after (n : Nat) : World := office.play office.opening (rivalry.take n)

def office.book (n : Nat) : Ledger :=
  .after office office.opening ⟨.empty, none⟩ (rivalry.take n)

end Sample

/-- While the first tank has the bridge, the second can neither bind nor use it; in the end only the
write of the second is in the scope. -/
theorem bridge_protocol_rivalry :
    (Sample.office.after 1).bind (.memory "file") (.named "b") = .error .alreadyBound ∧
      (Bridge.dispatch ⟨5, 1⟩ (some (.named "b")) .set [0xc1] (Sample.office.after 1)).1 =
        .error .unbound ∧
      (Bridge.dispatch ⟨5, 1⟩ (some (.named "a")) .set (Request.set [1] [9]).args
        (Sample.office.after 2)).1 = .ok (Wire.toMsgpack true) ∧
      (Sample.office.after 3).view [1] = some [9] ∧
      (Sample.office.after 4).heap = .empty ∧
      (Sample.office.after 5).view [1] = none ∧
      (Sample.office.after 6).view [2] = some [5] ∧
      ((Sample.office.after 7).heap.store "file").get? [1] = none ∧
      ((Sample.office.after 7).heap.store "file").get? [2] = some [5] := by
  have kept (n : Nat) :
      Bridge.Protocol Sample.office (Sample.office.after n) (Sample.office.book n) :=
    bridge_protocol Sample.office (Disk.blank []) .empty Sample.desks (.new 0 0) Sample.equals
      (Sample.rivalry.take n)
  have entered : (Sample.office.book 2).held = some ⟨0, .named "a", .memory "file", []⟩ := rfl
  have first : (Sample.office.book 3).held =
      some ⟨0, .named "a", .memory "file", [.set [1] [9]]⟩ := rfl
  have freed : (Sample.office.book 5).held = some ⟨0, .named "b", .memory "file", []⟩ := rfl
  have second : (Sample.office.book 6).held =
      some ⟨0, .named "b", .memory "file", [.set [2] [5]]⟩ := rfl
  have lands := (kept 6).lands second
  refine ⟨((kept 1).exclusive _ _ rfl).1, ?_, ?_, ?_, (kept 4).shows.heap, ?_, ?_, ?_, ?_⟩
  · -- the arguments cannot be read, but they are not looked at
    have dealt := (kept 1).dispatched (some (.named "b")) .set [0xc1]
    refine Classical.not_not.1 fun through => ?_
    obtain ⟨t, held, owner⟩ := (dealt.unbound (m := .set) rfl).1.1 through
    cases held
    exact absurd owner (by decide)
  · have dealt := (kept 2).dispatched (some (.named "a")) .set (Request.set [1] [9]).args
    have spelled := Request.spells_call (q := .set [1] [9]) ⟨by decide, by decide⟩
    exact (dealt.carried entered rfl spelled rfl).1.told
  · exact congrFun ((kept 3).sees first) [1]
  · exact congrFun ((kept 5).sees freed) [1]
  · exact congrFun ((kept 6).sees second) [2]
  · exact congrFun lands [1]
  · exact congrFun lands [2]

end ContractHost
