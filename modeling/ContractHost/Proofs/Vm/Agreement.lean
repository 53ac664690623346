import ContractHost.Proofs.Gas.Threshold

/-!
Running a program with state bound to it and calling a unit that runs the same program come to the
same (`Vm.withState_agrees`).

The program has all the gas there can be, so nothing is ever refused to it (`Ample`). A call of the
unit pays the base charge first and has a limit, and its guard may have another number and another
scope. It still follows the program step by step (`Shadows`) as long as the limit covers the base
charge and what the program used.
-/

namespace ContractHost

namespace Vm

variable {vm : Vm} {scope : Layer} {p : Program} {w u v w' : World} {call : Call}
  {units : Uri → Prop} {r : CallRequest} {most : UInt64}

section Unlimited

/-- A tank that may give out all the gas there can be keeps doing so, and nothing is refused. -/
def Ample (w : World) (log : List LogEntry) (w' : World) : Prop :=
  w.callTank.limit = Gas.greatest →
    w'.callTank.limit = Gas.greatest ∧ ∀ e ∈ log, ¬ e.IsRefusal

theorem Ample.of_same {log : List LogEntry} (tank : w'.callTank = w.callTank)
    (none : ∀ e ∈ log, ¬ e.IsRefusal) : Ample w log w' := by
  intro ample
  rw [tank]
  exact ⟨ample, none⟩

theorem Ample.request {costs : Gas.Costs} {answer : Except InvokeError Bytes}
    (a : Bridge.Answers costs (some .call) call w answer w') :
    Ample w [.request call w answer w'] w' := by
  cases a with
  | unknown noMethod => exact of_same rfl (by simp [LogEntry.IsRefusal])
  | unbound known shut => exact of_same rfl (by simp [LogEntry.IsRefusal])
  | malformed known bound bad =>
      exact of_same rfl (by simp [LogEntry.IsRefusal, InvokeError.malformed])
  | refused bound made dear =>
      obtain ⟨carried, -, -⟩ := World.boundTo_eq_some_iff.1 bound
      cases carried
      intro ample
      have paid := Gas.Tank.charge_of_greatest ample
      cases (paid _).symm.trans dear
  | done bound made paid =>
      obtain ⟨carried, -, -⟩ := World.boundTo_eq_some_iff.1 bound
      cases carried
      intro ample
      obtain ⟨rfl, -⟩ := Gas.Tank.charge_eq_ok paid
      exact ⟨ample, by simp [LogEntry.IsRefusal]⟩

theorem Ample.stepwise (vm : Vm) : vm.Stepwise (some .call) Ample where
  refl _ := of_same rfl (List.forall_mem_nil _)
  trans first second ample := by
    obtain ⟨ample, none⟩ := first ample
    obtain ⟨ample, none'⟩ := second ample
    exact ⟨ample, List.forall_mem_append.2 ⟨none, none'⟩⟩
  resolve _ _ := of_same rfl (List.forall_mem_nil _)
  request := request
  charge units w ample := by
    rw [World.chargeInvoker_call, Gas.Tank.charge_of_greatest ample]
    exact ⟨ample, by simp [LogEntry.IsRefusal]⟩
  note _ _ := of_same rfl (List.forall_mem_nil _)

theorem callTank_withState (vm : Vm) (scope : Layer) (p : Program) (free : w.binding = none) :
    (vm.withState scope p w).2.callTank =
      (vm.runProgram (some .call) p (stateStart scope w)).2.callTank := by
  rw [withState_of_free vm scope p free]
  rcases vm.runProgram (some .call) p (stateStart scope w) with ⟨(e | result) | message, w'⟩
  · exact World.callTank_release w' _
  · exact World.callTank_commit w' _
  · exact World.callTank_release w' _

theorem ran_of_finished {raw : Bytes} (free : w.binding = none)
    (finished : (vm.withState scope p w).1 = .finished (.ok raw)) :
    ∃ w', vm.runProgram (some .call) p (stateStart scope w) = (.answered (.ok raw), w') ∧
      (vm.withState scope p w).2 = w'.commit w.freshGuard := by
  rw [withState_of_free vm scope p free] at finished ⊢
  rcases ran : vm.runProgram (some .call) p (stateStart scope w) with
    ⟨(e | result) | message, w'⟩
  · rw [ran] at finished
    cases finished
  · rw [ran] at finished
    cases finished
    exact ⟨w', rfl, rfl⟩
  · rw [ran] at finished
    cases finished

theorem withState_unrefused (vm : Vm) (scope : Layer) (p : Program) (free : w.binding = none) :
    (vm.withState scope p w).2.callTank.exhausted = false ∧
      ∀ e ∈ vm.stateLog scope p w, ¬ e.IsRefusal := by
  have onward := (Onward.stepwise vm).runProgram p (stateStart scope w)
  obtain ⟨-, none⟩ := (Ample.stepwise vm).runProgram p (stateStart scope w) rfl
  rw [callTank_withState vm scope p free, stateLog_of_free vm scope p free]
  refine ⟨Bool.eq_false_iff.2 fun exhausted => ?_, none⟩
  rcases onward.exhausted.1 exhausted with before | ⟨e, mem, refusal⟩
  · cases before
  · exact none e mem refusal

end Unlimited

section Deeper

/-- A program that ends by itself ends in the same way if invocations that end by themselves do. -/
theorem run_deeper {invoke deeper : Uri → Call → World → Outcome × World}
    {invoker : Option TankRef}
    (nested : ∀ uri call u result u', invoke uri call u = (.answered result, u') →
      deeper uri call u = (.answered result, u'))
    {result : Except InvokeError Bytes} (ran : p.run invoke invoker u = (.answered result, w')) :
    p.run deeper invoker u = (.answered result, w') := by
  induction p generalizing u with
  | done result => exact ran
  | panic message => cases ran
  | invoke uri call next ih =>
      simp only [Program.run] at ran ⊢
      rcases invoked : invoke uri call u with ⟨answer | message, u'⟩
      · rw [invoked] at ran
        rw [nested uri call u answer u' invoked]
        exact ih answer ran
      · rw [invoked] at ran
        cases ran
  | charge cost next ih => exact ih _ ran
  | tank next ih => exact ih _ ran
  | note n next ih => exact ih ran

/-- An invocation that was answered is answered in the same way where invocations may be nested
deeper. -/
theorem invoke_deeper (vm : Vm) (invoker : Option TankRef) {depth deeper : Nat}
    (le : depth ≤ deeper) {uri : Uri} {result : Except InvokeError Bytes}
    (ran : vm.invoke invoker depth uri call u = (.answered result, w')) :
    vm.invoke invoker deeper uri call u = (.answered result, w') := by
  induction depth generalizing deeper uri call u result w' with
  | zero => cases ran
  | succ depth ih =>
      obtain ⟨deeper, rfl⟩ := Nat.exists_eq_add_of_le' (Nat.le_trans (Nat.le_add_left 1 depth) le)
      simp only [invoke] at ran ⊢
      rcases found : u.resolve uri with ⟨e | _ | unit, u'⟩
      · rw [found] at ran
        exact ran
      · rw [found] at ran
        exact ran
      · rw [found] at ran
        exact run_deeper (fun _ _ _ _ _ => ih (Nat.le_of_succ_le_succ le)) ran

def nesting (vm : Vm) (n : Nat) : Vm := { vm with maxNesting := n }

theorem invoke_nesting (vm : Vm) (n : Nat) (invoker : Option TankRef) (depth : Nat) :
    (vm.nesting n).invoke invoker depth = vm.invoke invoker depth := by
  induction depth with
  | zero => rfl
  | succ depth ih =>
      funext uri call u
      simp only [invoke, ih]
      rfl

end Deeper

section Following

/-- What stays the same while a call runs beside a program: the scopes and the guards of the program
and of the call, the base charge, and the limit of the call. -/
structure Terms where
  scope : Layer
  scope' : Layer
  guard : GuardId
  guard' : GuardId
  base : UInt64
  limit : UInt64

/-- A world in which a call runs, beside one in which a program runs with state bound to it. What
locators lead to is the same, the guards hold the same writes on scopes that hold the same, and the
call has used the base charge in addition. -/
structure Shadows (w : World) (units : Uri → Prop) (k : Terms) (u v : World) : Prop where
  leads (uri : Uri) : (u.resolve uri).1 = (w.resolve uri).1
  same {uri : Uri} (mem : units uri) : (u.resolve uri).1 = (v.resolve uri).1
  held : ∃ writes, u.boundTo (some .call) = some (.call, k.guard, ⟨k.scope, writes⟩) ∧
    v.boundTo (some .call) = some (.call, k.guard', ⟨k.scope', writes⟩)
  view : k.scope.get u.heap = k.scope'.get v.heap
  used : v.callTank.used = Gas.addSat k.base u.callTank.used
  limit : v.callTank.limit = k.limit

/-- The limit of the call covers the base charge and a quantity besides. -/
abbrev Terms.Covers (k : Terms) (most : UInt64) : Prop := Gas.addSat k.base most ≤ k.limit

namespace Shadows

variable {k : Terms}

theorem resolve (s : Shadows w units k u v) {uri : Uri} (mem : units uri) :
    InStep (Shadows w units k) (u.resolve uri) (v.resolve uri) := by
  have again (x : World) (other : Uri) :
      ((x.resolve uri).2.resolve other).1 = (x.resolve other).1 :=
    Resolver.resolveChain_again x.resolvers uri other
  refine ⟨s.same mem, fun other => ?_, fun {other} mem => ?_, s.held, s.view, s.used, s.limit⟩
  · exact (again u other).trans (s.leads other)
  · exact (again u other).trans ((s.same mem).trans (again v other).symm)

/-- What is admitted to the program is admitted to the call, if its limit covers it. -/
theorem pay (s : Shadows w units k u v) (covers : k.Covers most) {cost : UInt64} {t : Gas.Tank}
    (paid : u.callTank.charge cost = (t, .ok ())) (within : t.used ≤ most) :
    v.callTank.charge cost = ({ v.callTank with used := Gas.addSat k.base t.used }, .ok ()) := by
  obtain ⟨rfl, -⟩ := Gas.Tank.charge_eq_ok paid
  have sum : Gas.addSat v.callTank.used cost =
      Gas.addSat k.base (Gas.addSat u.callTank.used cost) := by
    rw [s.used, Gas.addSat_assoc]
  have admitted : Gas.addSat v.callTank.used cost ≤ v.callTank.limit := by
    rw [sum, s.limit]
    exact UInt64.le_trans (Gas.addSat_le_addSat k.base within) covers
  rw [← sum]
  exact if_pos admitted

theorem charge (s : Shadows w units k u v) (covers : k.Covers most) {cost : UInt64}
    (fits : (u.chargeInvoker cost (some .call)).2.Fits most) :
    InStep (Shadows w units k) (u.chargeInvoker cost (some .call))
      (v.chargeInvoker cost (some .call)) := by
  rw [World.chargeInvoker_call] at fits ⊢
  rw [World.chargeInvoker_call]
  rcases charged : u.callTank.charge cost with ⟨t, refusal | _⟩
  · rw [charged] at fits
    obtain ⟨rfl, -⟩ := Gas.Tank.charge_eq_error charged
    cases fits.admitted
  · rw [charged] at fits
    rw [s.pay covers charged fits.within]
    exact ⟨rfl, s.leads, s.same, s.held, s.view, rfl, s.limit⟩

theorem answer (s : Shadows w units k u v) (covers : k.Covers most)
    (fits : (Bridge.answer vm.gas.hostCosts (some .call) call u).2.Fits most) :
    InStep (Shadows w units k) (Bridge.answer vm.gas.hostCosts (some .call) call u)
      (Bridge.answer vm.gas.hostCosts (some .call) call v) := by
  obtain ⟨writes, bound, bound'⟩ := s.held
  have answers := Bridge.answers vm.gas.hostCosts (some .call) call u
  generalize Bridge.answer vm.gas.hostCosts (some .call) call u = answered at answers fits ⊢
  obtain ⟨result, u'⟩ := answered
  cases answers with
  | unknown noMethod =>
      have followed : Bridge.Answers vm.gas.hostCosts (some .call) call v _ v := .unknown noMethod
      rw [followed.eq]
      exact ⟨rfl, s⟩
  | unbound known shut => cases shut.symm.trans bound
  | malformed known _ bad =>
      have followed : Bridge.Answers vm.gas.hostCosts (some .call) call v _ v :=
        .malformed known bound' bad
      rw [followed.eq]
      exact ⟨rfl, s⟩
  | refused reached made dear =>
      cases bound.symm.trans reached
      obtain ⟨rfl, -⟩ := Gas.Tank.charge_eq_error dear
      cases fits.admitted
  | @done _ _ _ q t reached made paid =>
      cases bound.symm.trans reached
      have view := Guard.get_congr s.view writes
      have paid' := s.pay covers paid fits.within
      rw [view] at paid'
      have followed := Bridge.Answers.done bound' made paid'
      rw [followed.eq, view]
      -- the same change goes into both guards
      obtain ⟨after, changed⟩ : ∃ after, ∀ scope,
          Guard.apply ⟨scope, writes⟩ q.change? = ⟨scope, after⟩ := by
        cases q.change? with
        | none => exact ⟨writes, fun _ => rfl⟩
        | some change => exact ⟨writes.insert change.1 change.2, fun _ => rfl⟩
      rw [changed, changed]
      exact ⟨rfl, s.leads, s.same, ⟨after, World.boundTo_setGuard bound t _,
        World.boundTo_setGuard bound' _ _⟩, s.view, rfl, s.limit⟩

theorem follows (vm : Vm) (blind : w.Blind units) (covers : k.Covers most) :
    vm.Follows units most (Shadows w units k) where
  blind s _ mem _ leads := blind _ mem _ ((s.leads _).symm.trans leads)
  resolve s _ mem := s.resolve mem
  answer s _ fits := s.answer covers fits
  charge s _ fits := s.charge covers fits
  note s _ := ⟨s.leads, s.same, s.held, s.view, s.used, s.limit⟩

theorem commit (s : Shadows w units k u v) (t : Gas.Tank) :
    k.scope'.get (World.commit { v with callTank := t } k.guard').heap =
      k.scope.get (u.commit k.guard).heap := by
  obtain ⟨writes, bound, bound'⟩ := s.held
  have live := (World.boundTo_eq_some_iff.1 bound).2.2
  have live' : ({ v with callTank := t } : World).guards.get? k.guard' = some ⟨k.scope', writes⟩ :=
    (World.boundTo_eq_some_iff.1 bound').2.2
  rw [World.commit_of_live live, World.commit_of_live live']
  simp only [Layer.get_putAll, s.view]

end Shadows

/-- A call of a unit that runs a program whatever it is asked, made in a world in which nothing is
bound and certain other units are found that are found in the world of the program, and in a scope
that holds the same as the scope of the program. -/
structure Mirrors (units : Uri → Prop) (scope : Layer) (p : Program) (w : World)
    (r : CallRequest) (v : World) : Prop where
  free : v.binding = none
  readable : ∃ args, Message.decode r.msg = .ok args
  unit : (v.resolve (Uri.store r.checksum)).1 = .ok (.guest fun _ => p)
  others {uri : Uri} (mem : units uri) : (w.resolve uri).1 = (v.resolve uri).1
  view : scope.get w.heap = r.scope.get v.heap

theorem Mirrors.request (h : Mirrors units scope p w r v) (entry : Entry) :
    Mirrors units scope p w (entry.request r) v := by
  cases entry with
  | instantiate => exact ⟨h.free, h.readable, h.unit, h.others, h.view⟩
  | execute => exact h

/-- The gas of a call whose unit does what a log tells and gives a result: the base charge, all that
is charged in the log, and the price of the result, up to the greatest quantity. -/
def fullGas (vm : Vm) (rate : Gas.Rate) (log : List LogEntry) (raw : Bytes) : Nat :=
  min Gas.greatest.toNat (vm.gas.invokeBase.toNat + LogEntry.hostGas vm.gas.hostCosts log +
    LogEntry.directGas log + (rate.mulFloor (UInt64.ofNat raw.length)).toNat)

theorem used_of_ran {outcome : Outcome} (free : w.binding = none)
    (ran : vm.runProgram (some .call) p (stateStart scope w) = (outcome, w')) :
    w'.callTank.used.toNat = min Gas.greatest.toNat
      (LogEntry.hostGas vm.gas.hostCosts (vm.stateLog scope p w) +
        LogEntry.directGas (vm.stateLog scope p w)) := by
  have paid := (Paid.stepwise vm).runProgram p (stateStart scope w)
  rw [ran, ← stateLog_of_free vm scope p free] at paid
  have spent := paid Gas.greatest 0 (.new _ _)
  rw [spent.used_eq, Nat.zero_add]

namespace Mirrors

/-- The terms on which a call runs whose tank is in place. -/
abbrev terms (scope : Layer) (w : World) (r : CallRequest) (v : World) (t : Gas.Tank) : Terms :=
  ⟨scope, r.scope, w.freshGuard, v.freshGuard, t.used, t.limit⟩

theorem start (h : Mirrors units scope p w r v) (t : Gas.Tank) :
    Shadows w units (terms scope w r v t) (stateStart scope w)
      ((v.opened r.scope t).resolve (Uri.store r.checksum)).2 where
  leads _ := rfl
  same {uri} mem := (h.others mem).trans
    (Resolver.resolveChain_again v.resolvers (Uri.store r.checksum) uri).symm
  held := ⟨∅, World.boundTo_opened w scope _, World.boundTo_opened v r.scope t⟩
  view := h.view
  used := (Gas.addSat_zero _).symm
  limit := rfl

/-- The unit gives the result of the program, if the limit covers what the program uses. One level
of nesting goes to the unit itself. -/
theorem invoke (h : Mirrors units scope p w r v) (sightless : p.Blind units)
    (blind : w.Blind units) {result : Except InvokeError Bytes}
    (ran : vm.runProgram (some .call) p (stateStart scope w) = (.answered result, u))
    (admitted : u.callTank.exhausted = false) {t : Gas.Tank}
    (covers : Gas.addSat t.used u.callTank.used ≤ t.limit) {depth : Nat}
    (deep : vm.maxNesting ≤ depth) (call : Call) :
    ∃ v', vm.invoke (some .call) (depth + 1) (Uri.store r.checksum) call (v.opened r.scope t) =
        (.answered result, v') ∧ Shadows w units (terms scope w r v t) u v' := by
  have deeper := run_deeper (fun _ _ _ _ _ => vm.invoke_deeper (some .call) deep) ran
  have follows := Shadows.follows (k := terms scope w r v t) vm blind covers
  have followed := follows.run ((Onward.stepwise vm).invoke depth)
    (fun _ mem _ _ _ s fits => follows.invoke depth mem s fits) sightless (h.start t)
    (by rw [deeper]; exact ⟨admitted, UInt64.le_refl _⟩)
  rw [deeper] at followed
  obtain ⟨_, _, v', ⟨⟩, ran', last⟩ := followed.split
  have found : (v.opened r.scope t).resolve (Uri.store r.checksum) =
      (.ok (.guest fun _ => p), ((v.opened r.scope t).resolve (Uri.store r.checksum)).2) :=
    Prod.ext h.unit rfl
  refine ⟨v', ?_, last⟩
  rw [Vm.invoke, found]
  exact ran'

/-- A call whose unit runs a program succeeds as the program does, if its limit covers the gas. -/
theorem succeeds (h : Mirrors units scope p w r v) (free : w.binding = none)
    (sightless : p.Blind units) (blind : w.Blind units) {raw : Bytes} {response : Response}
    (finished : (vm.withState scope p w).1 = .finished (.ok raw))
    (read : Wire.ofMsgpack? (α := Response) raw = some response) {n : Nat} (deep : vm.maxNesting < n)
    (covered : vm.fullGas r.rate (vm.stateLog scope p w) raw ≤ r.limit.toNat) :
    ∃ used, ((vm.nesting n).call r v).1 = .ok (response, used) ∧
      used.toNat = vm.fullGas r.rate (vm.stateLog scope p w) raw ∧
      r.scope.get ((vm.nesting n).call r v).2.heap = scope.get (vm.withState scope p w).2.heap := by
  obtain ⟨u, ran, left⟩ := ran_of_finished free finished
  have admitted := (withState_unrefused vm scope p free).1
  rw [callTank_withState vm scope p free, ran] at admitted
  have used := used_of_ran free ran
  have small := vm.gas.invokeBase.toNat_lt
  simp only [fullGas, Gas.toNat_greatest] at covered used ⊢
  -- the limit covers the base charge, and what the program uses, and the price of the result
  obtain ⟨t, paid, charged, limit⟩ : ∃ t,
      (Gas.Tank.new r.limit r.meter).charge vm.gas.invokeBase = (t, .ok ()) ∧
        t.used = vm.gas.invokeBase ∧ t.limit = r.limit := by
    refine ⟨_, if_pos ?_, Gas.zero_addSat _, rfl⟩
    show Gas.addSat 0 vm.gas.invokeBase ≤ r.limit
    rw [Gas.zero_addSat, UInt64.le_iff_toNat_le]
    omega
  have covers : Gas.addSat t.used u.callTank.used ≤ t.limit := by
    rw [charged, limit, UInt64.le_iff_toNat_le, Gas.toNat_addSat]
    omega
  obtain ⟨args, decoded⟩ := h.readable
  obtain ⟨depth, rfl⟩ : ∃ depth, n = depth + 1 := Nat.exists_eq_add_of_le' (Nat.zero_lt_of_lt deep)
  have ready : (vm.nesting (depth + 1)).prepare r (r.start v) =
      (.ok (invocation r args, v.freshGuard), v.opened r.scope t) :=
    prepare_of_free decoded paid h.free
  obtain ⟨v', invoked, last⟩ :=
    h.invoke sightless blind ran admitted covers (Nat.le_of_lt_succ deep) (invocation r args)
  rw [← invoke_nesting vm (depth + 1)] at invoked
  have spent : v'.callTank.used = Gas.addSat vm.gas.invokeBase u.callTank.used :=
    last.used.trans (congrArg (Gas.addSat · u.callTank.used) charged)
  have total : Gas.addSat v'.callTank.used (r.rate.mulFloor (UInt64.ofNat raw.length)) ≤
      v'.callTank.limit := by
    rw [last.limit.trans limit, spent, UInt64.le_iff_toNat_le, Gas.toNat_addSat, Gas.toNat_addSat]
    omega
  have performed := perform_of_done ready invoked (if_pos total) read
  rw [call_fst, call_snd, performed, left]
  refine ⟨_, rfl, ?_, last.commit _⟩
  rw [World.callTank_commit]
  show (Gas.addSat v'.callTank.used _).toNat = _
  rw [spent, Gas.toNat_addSat, Gas.toNat_addSat]
  omega

end Mirrors

end Following

/-- Running a program with state bound to it and calling a unit that runs the program agree. The
program is refused no charge, however much gas it uses. If it succeeds, the scope holds what it held
before with the changes that the bridge made for it, and otherwise the heap is left as it was. And
if it looks at no tank, itself or through the units that it invokes, and its result can be read as
a response, then a call of a unit that does the same succeeds in a scope that holds the same, uses
just the gas that is charged on the way, and leaves the same in its scope, under every limit that
covers that gas. The unit itself is one level of nesting, which the host of the call has to admit
in addition. -/
theorem withState_agrees (vm : Vm) (scope : Layer) (p : Program) (w : World)
    (free : w.binding = none) :
    let log := vm.stateLog scope p w
    let ended := vm.withState scope p w
    (ended.2.callTank.exhausted = false ∧ ∀ e ∈ log, ¬ e.IsRefusal) ∧
      (∀ raw, ended.1 = .finished (.ok raw) →
        scope.get ended.2.heap = valuesAfter (scope.get w.heap) (LogEntry.changes log)) ∧
      ((∀ raw, ended.1 ≠ .finished (.ok raw)) →
        scope.get ended.2.heap = scope.get w.heap ∧ ended.2.heap = w.heap) ∧
      ∀ (units : Uri → Prop) (raw : Bytes) (response : Response), p.Blind units →
        w.Blind units → ended.1 = .finished (.ok raw) →
        Wire.ofMsgpack? (α := Response) raw = some response →
        ∀ (entry : Entry) (r : CallRequest) (v : World) (n : Nat),
          Mirrors units scope p w r v → vm.maxNesting < n →
          vm.fullGas r.rate log raw ≤ r.limit.toNat →
          ∃ used, ((vm.nesting n).enter entry r v).1 = .ok (response, used) ∧
            used.toNat = vm.fullGas r.rate log raw ∧
            r.scope.get ((vm.nesting n).enter entry r v).2.heap = scope.get ended.2.heap := by
  intro log ended
  obtain ⟨-, -, heap⟩ := withState_heap vm scope p free
  refine ⟨withState_unrefused vm scope p free, ?_, ?_, ?_⟩
  · intro raw finished
    rw [finished] at heap
    rw [heap, Layer.get_putAll]
  · intro unfinished
    have same : ended.2.heap = w.heap := by
      refine heap.trans ?_
      split
      · next raw finished => exact absurd finished (unfinished raw)
      · rfl
    exact ⟨by rw [same], same⟩
  · intro units raw response sightless blind finished read entry r v n mirrors deep covered
    have request := mirrors.request entry
    rw [enter_eq_call]
    cases entry <;> exact request.succeeds free sightless blind finished read deep covered

end Vm

namespace Sample

def spending : Program := spender ⟨"", [], none⟩

def bench : Layer := .memory "bench"

theorem spending_finished :
    (host.withState bench spending market).1 =
      .finished (.ok (Wire.toMsgpack Response.blank)) := by
  rfl

theorem market_mirrors (limit : UInt64) :
    Vm.Mirrors stalls bench spending market (request.withLimit limit) market where
  free := rfl
  readable := ⟨_, rfl⟩
  unit := by
    have leads : (market.resolve (Uri.store code)).1 = .ok (.guest spender) := rfl
    exact leads
  others _ := rfl
  view := rfl

end Sample

/-- A call of the spending unit comes to the same as running its program, with just the gas that
this takes. -/
theorem withState_agrees_spending :
    ∃ used, ((Sample.host.nesting 4).enter .execute (Sample.request.withLimit 174) Sample.market).1 =
        .ok (Response.blank, used) ∧
      used.toNat = 174 ∧
      Sample.request.scope.get ((Sample.host.nesting 4).enter .execute
          (Sample.request.withLimit 174) Sample.market).2.heap =
        Sample.bench.get (Sample.host.withState Sample.bench Sample.spending Sample.market).2.heap := by
  have gas : Sample.host.fullGas Sample.request.rate
      (Sample.host.stateLog Sample.bench Sample.spending Sample.market)
      (Wire.toMsgpack Response.blank) = 174 := by decide +kernel
  have sightless : Sample.spending.Blind Sample.stalls :=
    Sample.market_blind (Uri.store Sample.code) (.inl rfl) Sample.spender rfl _
  obtain ⟨-, -, -, agrees⟩ :=
    Vm.withState_agrees Sample.host Sample.bench Sample.spending Sample.market rfl
  obtain ⟨used, called, exact, left⟩ := agrees Sample.stalls _ Response.blank sightless
    Sample.market_blind Sample.spending_finished (by decide +kernel) .execute
    (Sample.request.withLimit 174) Sample.market 4 (Sample.market_mirrors 174) (by decide)
    (Nat.le_of_eq gas)
  exact ⟨used, called, exact.trans gas, left⟩

end ContractHost
