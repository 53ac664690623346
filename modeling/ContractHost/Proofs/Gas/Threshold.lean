import ContractHost.Guest.Request
import ContractHost.Proofs.Gas.Accounting
import ContractHost.Proofs.Vm.Atomicity
import ContractHost.Proofs.Vm.Limit

/-!
The limit of a call is an exact threshold (`Vm.limit_threshold`): it decides whether
a call succeeds, and nothing else about it.

The two runs that are compared go side by side as long as nothing is refused. Under a
limit that covers the gas nothing ever is. Under a lower one something has to be: had
all charges of the unit been admitted, the unit would have ended in the same way, and
the price of its result would have been too much. `Vm.Yields` is what is needed of
the unit then, and units that hand on every refusal have it (`Vm.yields_of_handsOn`).
-/

namespace ContractHost

theorem World.heap_commit (w : World) (g : GuardId) :
    (w.commit g).heap =
      match w.guards.get? g with
      | some guard => guard.scope.putAll w.heap guard.writes.entries
      | none => w.heap := by
  cases live : w.guards.get? g with
  | none => rw [World.commit_of_gone live]
  | some guard => rw [World.commit_of_live live]

def CallRequest.withLimit (r : CallRequest) (limit : UInt64) : CallRequest :=
  { r with limit := limit }

namespace Vm

/-- How the unit of a call ended, if the call got so far as to invoke it. -/
def callOutcome (vm : Vm) (r : CallRequest) (w : World) : Option Outcome :=
  match vm.prepare r (r.start w) with
  | (.ok (call, _), w) =>
    some (vm.invoke (some .call) vm.maxNesting (Uri.store r.checksum) call w).1
  | (.error _, _) => none

/-- The unit of a call gives no result once a charge was refused while it ran, whatever the limit
of the call is. -/
def Yields (vm : Vm) (r : CallRequest) (w : World) : Prop :=
  ∀ limit, (∃ e ∈ vm.callLog (r.withLimit limit) w, e.IsRefusal) →
    ∀ raw, vm.callOutcome (r.withLimit limit) w ≠ some (.answered (.ok raw))

variable {vm : Vm} {r : CallRequest} {w u v w' : World} {call : Call} {g : GuardId}
  {limit : UInt64} {units : Uri → Prop}

theorem used_le_of_charge {tank t : Gas.Tank} {cost : UInt64}
    (paid : tank.charge cost = (t, .ok ())) : tank.used ≤ t.used := by
  obtain ⟨rfl, -⟩ := Gas.Tank.charge_eq_ok paid
  rw [UInt64.le_iff_toNat_le, Gas.toNat_addSat]
  have bound := tank.used.toNat_lt
  omega

theorem prepare_withLimit (ready : vm.prepare r u = (.ok (call, g), v))
    (within : v.callTank.used ≤ limit) :
    vm.prepare r (u.withLimit limit) = (.ok (call, g), v.withLimit limit) := by
  have start := vm.prepared r u
  rw [ready] at start
  cases start with
  | ready decoded paid free => exact prepare_of_free decoded (charge_withLimit paid within) free

/-- The unit of a call was invoked: what it was asked, and how that ended. -/
structure Ran (vm : Vm) (r : CallRequest) (w : World) (call : Call) (g : GuardId) (v : World)
    (outcome : Outcome) (w' : World) : Prop where
  ready : vm.prepare r (r.start w) = (.ok (call, g), v)
  ran : vm.invoke (some .call) vm.maxNesting (Uri.store r.checksum) call v = (outcome, w')

namespace Ran

variable {outcome : Outcome}

theorem onward (h : Ran vm r w call g v outcome w') : Onward v (vm.callLog r w) w' := by
  have onward := (Onward.stepwise vm).invoke vm.maxNesting (Uri.store r.checksum) call v
  rwa [h.ran, ← callLog_of_ready h.ready] at onward

/-- The unit starts with a tank from which only the base charge was taken, and nothing else is
changed that locators depend on. -/
theorem start (h : Ran vm r w call g v outcome w') :
    v.callTank.exhausted = false ∧ ∀ uri, (v.resolve uri).1 = (w.resolve uri).1 := by
  have start := vm.prepared r (r.start w)
  rw [h.ready] at start
  cases start with
  | ready decoded paid free =>
      obtain ⟨rfl, -⟩ := Gas.Tank.charge_eq_ok paid
      exact ⟨rfl, fun _ => rfl⟩

theorem callable (h : Ran vm r w call g v outcome w') :
    (∀ e, Message.decode r.msg ≠ .error e) ∧ w.binding = none := by
  have start := vm.prepared r (r.start w)
  rw [h.ready] at start
  cases start with
  | ready decoded paid free =>
      refine ⟨fun e bad => ?_, free⟩
      rw [bad] at decoded
      cases decoded

theorem callOutcome (h : Ran vm r w call g v outcome w') : vm.callOutcome r w = some outcome := by
  simp [Vm.callOutcome, h.ready, h.ran]

theorem admitted {raw : Bytes} (h : Ran vm r w call g v (.answered (.ok raw)) w')
    (yields : vm.Yields r w) : w'.callTank.exhausted = false := by
  cases exhausted : w'.callTank.exhausted with
  | false => rfl
  | true =>
      rcases h.onward.exhausted.1 exhausted with before | refusal
      · rw [h.start.1] at before
        cases before
      · exact absurd h.callOutcome (yields r.limit refusal raw)

/-- The unit does the same under another limit, if nothing was refused. -/
theorem withLimit (h : Ran vm r w call g v outcome w') (blind : w.Blind units)
    (mem : units (Uri.store r.checksum)) (fits : w'.Fits limit) :
    Ran vm (r.withLimit limit) w call g (v.withLimit limit) outcome
      (w'.withLimit limit) where
  ready := prepare_withLimit h.ready (h.onward.fits fits).within
  ran := by
    have fits' : (vm.invoke (some .call) vm.maxNesting (Uri.store r.checksum) call v).2.Fits limit := by
      rw [h.ran]
      exact fits
    have again := vm.invoke_withLimit blind vm.maxNesting mem h.start.2 fits'
    rwa [h.ran] at again

theorem unique {call₂ : Call} {g₂ : GuardId} {v₂ w₂ : World} {outcome₂ : Outcome}
    (h : Ran vm r w call g v outcome w') (h₂ : Ran vm r w call₂ g₂ v₂ outcome₂ w₂) :
    g = g₂ ∧ outcome = outcome₂ ∧ w' = w₂ := by
  have ready := h.ready.symm.trans h₂.ready
  cases ready
  have ran := h.ran.symm.trans h₂.ran
  cases ran
  exact ⟨rfl, rfl, rfl⟩

theorem lower {call₂ : Call} {g₂ : GuardId} {v₂ w₂ : World} {outcome₂ : Outcome}
    (h : Ran vm r w call g v outcome w') (low : Ran vm (r.withLimit limit) w call₂ g₂ v₂ outcome₂ w₂)
    (blind : w.Blind units) (mem : units (Uri.store r.checksum)) (below : limit ≤ r.limit)
    (admitted : w₂.callTank.exhausted = false) :
    outcome₂ = outcome ∧ w' = w₂.withLimit r.limit := by
  have within : w₂.callTank.used ≤ limit := (spent_of_ran low.ready low.ran).within
  have fits : w₂.Fits r.limit := ⟨admitted, UInt64.le_trans within below⟩
  obtain ⟨-, same, worlds⟩ := h.unique (low.withLimit blind mem fits)
  exact ⟨same.symm, worlds⟩

end Ran

theorem perform_of_done {raw : Bytes} {t : Gas.Tank} {response : Response}
    (ready : vm.prepare r u = (.ok (call, g), v))
    (ran : vm.invoke (some .call) vm.maxNesting (Uri.store r.checksum) call v =
      (.answered (.ok raw), w'))
    (paid : w'.callTank.charge (r.rate.mulFloor (UInt64.ofNat raw.length)) = (t, .ok ()))
    (read : Wire.ofMsgpack? (α := Response) raw = some response) :
    vm.perform r u = (.ok response, World.commit { w' with callTank := t } g) := by
  simp only [perform, ready, ran, contain, conclude, World.charge_of_ok (r := .call) paid, read]
  rfl

theorem exists_ran_of_ok {response : Response} {used : UInt64}
    (done : (vm.call r w).1 = .ok (response, used)) :
    ∃ call g v w' raw t, Ran vm r w call g v (.answered (.ok raw)) w' ∧
      w'.callTank.charge (r.rate.mulFloor (UInt64.ofNat raw.length)) = (t, .ok ()) ∧
      Wire.ofMsgpack? (α := Response) raw = some response ∧ t.used = used ∧
      (vm.call r w).2 = World.commit { w' with callTank := t } g := by
  have stages := vm.performed r (r.start w)
  rw [call_fst, call_snd] at done
  rw [call_snd]
  generalize (vm.perform r (r.start w)).1 = result at stages done
  generalize (vm.perform r (r.start w)).2 = last at stages done ⊢
  cases stages with
  | unprepared | failed | unpaid | noResponse => cases done
  | @done _ g _ w' _ t _ ready ran paid read =>
      have tank := World.callTank_commit { w' with callTank := t } g
      cases done
      exact ⟨_, _, _, _, _, _, ⟨ready, ran⟩, paid, read, congrArg Gas.Tank.used tank.symm, rfl⟩

/-- A call that succeeded succeeds in the same way under every limit that covers what it used. -/
theorem call_of_covered (blind : w.Blind units) (mem : units (Uri.store r.checksum))
    (yields : vm.Yields r w) {response : Response} {used : UInt64}
    (done : (vm.call r w).1 = .ok (response, used)) (covered : used ≤ limit) :
    (vm.call (r.withLimit limit) w).1 = .ok (response, used) ∧
      (vm.call (r.withLimit limit) w).2.heap = (vm.call r w).2.heap := by
  obtain ⟨call, g, v, w', raw, t, ran, paid, read, rfl, left⟩ := exists_ran_of_ok done
  have fits : w'.Fits limit := ⟨ran.admitted yields, UInt64.le_trans (used_le_of_charge paid) covered⟩
  have again := ran.withLimit blind mem fits
  have performed := perform_of_done again.ready again.ran (charge_withLimit paid covered) read
  have tank := World.callTank_commit { w'.withLimit limit with
    callTank := { t with limit := limit } } g
  rw [call_fst, call_snd, performed, left]
  refine ⟨?_, ?_⟩
  · rw [tank]
  · rw [World.heap_commit, World.heap_commit]
    rfl

/-- A call that succeeded fails for want of gas under every limit below what it used. -/
theorem call_of_short (blind : w.Blind units) (mem : units (Uri.store r.checksum))
    (yields : vm.Yields r w) {response : Response} {used : UInt64}
    (done : (vm.call r w).1 = .ok (response, used)) (short : limit < used) :
    ∃ message, (vm.perform (r.withLimit limit) ((r.withLimit limit).start w)).1 =
      .error (.insufficientGas message) := by
  obtain ⟨call, g, v, w', raw, t, ran, paid, read, rfl, left⟩ := exists_ran_of_ok done
  have affordable : t.used ≤ r.limit :=
    (spent_of_ran ran.ready ran.ran).limit_eq ▸ (Gas.Tank.charge_eq_ok paid).2
  have below : limit ≤ r.limit := UInt64.le_trans (UInt64.le_of_lt short) affordable
  have stages := vm.performed (r.withLimit limit) ((r.withLimit limit).start w)
  generalize (vm.perform (r.withLimit limit) ((r.withLimit limit).start w)).1 = result at stages ⊢
  generalize (vm.perform (r.withLimit limit) ((r.withLimit limit).start w)).2 = last at stages
  cases stages with
  | unprepared early =>
      have start := vm.prepared (r.withLimit limit) ((r.withLimit limit).start w)
      rw [early] at start
      obtain ⟨decodes, free⟩ := ran.callable
      cases start with
      | noMessage bad => exact absurd bad (decodes _)
      | unpaid decoded dear => exact ⟨_, rfl⟩
      | alreadyBound decoded paid bound => exact absurd (free.symm.trans bound) nofun
  | @failed _ _ _ w₂ _ _ ready ran' bad =>
      cases exhausted : w₂.callTank.exhausted with
      | true => exact ⟨_, by simp only [failure, exhausted, if_true]; rfl⟩
      | false =>
          obtain ⟨rfl, -⟩ := ran.lower ⟨ready, ran'⟩ blind mem below exhausted
          cases bad
  | unpaid ready ran dear => exact ⟨_, rfl⟩
  | noResponse ready ran' paid bad =>
      have low : Ran vm (r.withLimit limit) w _ _ _ _ _ := ⟨ready, ran'⟩
      obtain ⟨same, -⟩ := ran.lower low blind mem below (low.admitted fun limit => yields limit)
      cases same
      rw [read] at bad
      cases bad
  | @done _ _ _ w₂ _ t₂ _ ready ran' paid' read' =>
      have low : Ran vm (r.withLimit limit) w _ _ _ _ _ := ⟨ready, ran'⟩
      obtain ⟨same, rfl⟩ := ran.lower low blind mem below (low.admitted fun limit => yields limit)
      cases same
      have within := (spent_of_ran low.ready low.ran).limit_eq ▸ (Gas.Tank.charge_eq_ok paid').2
      have again := @charge_withLimit r.limit _ _ _ paid' (UInt64.le_trans within below)
      have used : t.used = t₂.used := congrArg (fun charged => charged.1.used) (paid.symm.trans again)
      rw [used] at short
      exact absurd within (UInt64.not_le.2 short)

/-- The limit of a call is an exact threshold for units that look at no tank and give no result
once a charge was refused. If a call succeeds, it succeeds with the same answer, the same gas and
the same writes under every limit that covers the gas, and under every lower limit it fails for
want of gas, reports no more gas than the limit, and leaves the heap as it was. -/
theorem limit_threshold (vm : Vm) (entry : Entry) (r : CallRequest) (w : World)
    {units : Uri → Prop} (blind : w.Blind units) (mem : units (Uri.store r.checksum))
    (yields : vm.Yields (entry.request r) w) {response : Response} {used : UInt64}
    (done : (vm.enter entry r w).1 = .ok (response, used)) :
    (∀ limit, used ≤ limit →
      (vm.enter entry (r.withLimit limit) w).1 = .ok (response, used) ∧
        (vm.enter entry (r.withLimit limit) w).2.heap = (vm.enter entry r w).2.heap) ∧
    (∀ limit, limit < used → ∃ message reported,
      (vm.enter entry (r.withLimit limit) w).1 = .error ⟨.insufficientGas message, reported⟩ ∧
        reported ≤ limit ∧ (vm.enter entry (r.withLimit limit) w).2.heap = w.heap) := by
  have request (limit : UInt64) :
      entry.request (r.withLimit limit) = (entry.request r).withLimit limit := by
    cases entry <;> rfl
  have checksum : units (Uri.store (entry.request r).checksum) := by
    cases entry <;> exact mem
  simp only [enter_eq_call, request] at done ⊢
  refine ⟨fun limit covered => ?_, fun limit short => ?_⟩
  · exact call_of_covered blind checksum yields done covered
  · obtain ⟨message, failed⟩ := call_of_short blind checksum yields done short
    obtain ⟨_, _, _, _, _, _, ran, -⟩ := exists_ran_of_ok done
    have within := (spent_of_performed vm ((entry.request r).withLimit limit) w).within
    have heap := (perform_heap vm ((entry.request r).withLimit limit) ran.callable.2).2.2
    rw [failed] at heap
    rw [call_fst, call_snd, failed]
    exact ⟨message, _, rfl, within, heap⟩

end Vm

/-- The program ends for want of gas, perhaps after notes. -/
def Program.Broke : Program → Prop
  | .done (.error (.outOfGas _)) => True
  | .note _ next => next.Broke
  | _ => False

/-- The program hands on every refusal that it meets, its own and those of the units that it
invokes. -/
def Program.HandsOn (units : Uri → Prop) : Program → Prop
  | .done _ => True
  | .panic _ => True
  | .invoke uri _ next => units uri ∧ (∀ refusal, (next (.error (.outOfGas refusal))).Broke) ∧
    ∀ result, (next result).HandsOn units
  | .charge _ next => (∀ refusal, (next (some (.error refusal))).Broke) ∧
    ∀ answer, (next answer).HandsOn units
  | .tank next => ∀ tank, (next tank).HandsOn units
  | .note _ next => next.HandsOn units

/-- The units that certain locators lead to hand on every refusal, and they invoke only one
another. -/
def World.HandsOn (w : World) (units : Uri → Prop) : Prop :=
  ∀ uri, units uri → ∀ g, (w.resolve uri).1 = .ok (.guest g) → ∀ call, (g call).HandsOn units

def Outcome.Broke (outcome : Outcome) : Prop :=
  ∃ refusal, outcome = .answered (.error (.outOfGas refusal))

theorem Program.Broke.run {invoke : Uri → Call → World → Outcome × World}
    {invoker : Option TankRef} {p : Program} (broke : p.Broke) (u : World) :
    (p.run invoke invoker u).1.Broke := by
  induction p generalizing u with
  | done result =>
      unfold Program.Broke at broke
      split at broke
      · next refusal eq =>
        cases eq
        exact ⟨refusal, rfl⟩
      · cases ‹Program.done _ = .note _ _›
      · exact broke.elim
  | note n next ih => exact ih broke _
  | panic | invoke | charge | tank => exact broke.elim

namespace Vm

variable {vm : Vm} {w u : World} {units : Uri → Prop}

/-- A program that hands on refusals fails for want of gas if one was met, given that the
invocations that it makes do. -/
theorem run_broke {invoke : Uri → Call → World → Outcome × World}
    {log : Uri → Call → World → List LogEntry}
    (onward : ∀ uri call u, Onward u (log uri call u) (invoke uri call u).2)
    (nested : ∀ uri, units uri → ∀ call u, (∀ uri, (u.resolve uri).1 = (w.resolve uri).1) →
      (∃ e ∈ log uri call u, e.IsRefusal) → (invoke uri call u).1.Broke)
    {p : Program} (hands : p.HandsOn units)
    (same : ∀ uri, (u.resolve uri).1 = (w.resolve uri).1)
    (refused : ∃ e ∈ p.log invoke log (some .call) u, e.IsRefusal) :
    (p.run invoke (some .call) u).1.Broke := by
  induction p generalizing u with
  | done | panic => simp [Program.log] at refused
  | invoke uri call next ih =>
      obtain ⟨mem, broke, others⟩ := hands
      have first := onward uri call u
      have failed := nested uri mem call u same
      simp only [Program.log, List.mem_append, or_and_right, exists_or] at refused
      simp only [Program.run]
      rcases ran : invoke uri call u with ⟨result | message, u'⟩
      · rw [ran] at first failed refused
        rcases refused with refused | refused
        · obtain ⟨refusal, eq⟩ := failed refused
          cases eq
          exact (broke refusal).run u'
        · exact ih result (others result) (fun uri => (first.resolve uri).trans (same uri)) refused
      · rw [ran] at failed refused
        rcases refused with refused | refused
        · obtain ⟨refusal, eq⟩ := failed refused
          cases eq
        · simp at refused
  | charge cost next ih =>
      obtain ⟨broke, others⟩ := hands
      have charged := Onward.charge cost u
      simp only [Program.log, List.mem_cons] at refused
      simp only [Program.run]
      generalize u.chargeInvoker cost (some .call) = asked at charged refused ⊢
      obtain ⟨answer, u'⟩ := asked
      obtain ⟨e, rfl | mem, isRefusal⟩ := refused
      · rcases answer with _ | refusal | _
        · exact isRefusal.elim
        · exact (broke refusal).run u'
        · exact isRefusal.elim
      · exact ih answer (others answer) (fun uri => (charged.resolve uri).trans (same uri))
          ⟨e, mem, isRefusal⟩
  | tank next ih => exact ih _ (hands _) same refused
  | note n next ih => exact ih (u := u.note n) hands same refused

theorem invoke_broke (vm : Vm) (hands : w.HandsOn units) (depth : Nat) {uri : Uri}
    (mem : units uri) {call : Call} (same : ∀ uri, (u.resolve uri).1 = (w.resolve uri).1)
    (refused : ∃ e ∈ vm.log (some .call) depth uri call u, e.IsRefusal) :
    (vm.invoke (some .call) depth uri call u).1.Broke := by
  induction depth generalizing uri call u with
  | zero => simp [log] at refused
  | succ depth ih =>
      have leads := same uri
      have kept := (Onward.stepwise vm).resolve uri u
      simp only [log] at refused
      simp only [invoke]
      rcases asked : u.resolve uri with ⟨_ | unit, u'⟩
      · simp [asked] at refused
      rw [asked] at refused leads kept
      cases unit with
      | bridge =>
          simp only [List.mem_singleton, exists_eq_left] at refused
          show (Outcome.answered (Bridge.answer vm.gas.hostCosts (some .call) call u').1).Broke
          generalize Bridge.answer vm.gas.hostCosts (some .call) call u' = answered at refused ⊢
          obtain ⟨answer, left⟩ := answered
          unfold LogEntry.IsRefusal at refused
          split at refused
          · next eq =>
            cases eq
            exact ⟨_, rfl⟩
          · cases ‹LogEntry.request .. = .charge ..›
          · exact refused.elim
      | guest g =>
          exact run_broke ((Onward.stepwise vm).invoke depth)
            (fun uri mem call u same refused => ih mem same refused)
            (hands uri mem g leads.symm call) (fun uri => (kept.resolve uri).trans (same uri)) refused

/-- Units that hand on every refusal give no result once a charge was refused. -/
theorem yields_of_handsOn {r : CallRequest} (hands : w.HandsOn units)
    (mem : units (Uri.store r.checksum)) : vm.Yields r w := by
  intro limit refused raw
  rcases ready : vm.prepare (r.withLimit limit) ((r.withLimit limit).start w) with
    ⟨e | ⟨call, g⟩, v⟩
  · simp [callLog, ready] at refused
  · simp only [callLog, ready] at refused
    simp only [callOutcome, ready]
    have ran : Ran vm (r.withLimit limit) w call g v _ _ := ⟨ready, rfl⟩
    obtain ⟨refusal, failed⟩ := vm.invoke_broke hands vm.maxNesting mem ran.start.2 refused
    intro ok
    have result := Option.some.inj ok
    rw [show (r.withLimit limit).checksum = r.checksum from rfl, failed] at result
    cases result

end Vm

section Guests

variable {units : Uri → Prop} {α β : Type} [Wire α] [Wire β] {uri : Uri} {method : String}
  {argument : α} {next : Except InvokeError β → Program}

theorem Program.blind_invoke (mem : units uri) (others : ∀ answer, (next answer).Blind units) :
    (Guest.invoke uri method argument next).Blind units := by
  refine ⟨mem, fun result => ?_⟩
  rcases result with e | raw
  · exact others _
  · dsimp only
    split <;> exact others _

theorem Program.handsOn_invoke (mem : units uri)
    (broke : ∀ refusal, (next (.error (.outOfGas refusal))).Broke)
    (others : ∀ answer, (next answer).HandsOn units) :
    (Guest.invoke uri method argument next).HandsOn units := by
  refine ⟨mem, broke, fun result => ?_⟩
  rcases result with e | raw
  · exact others _
  · dsimp only
    split <;> exact others _

end Guests

namespace Sample

def thrifty : Guest := fun _ => Guest.get [1] fun _ => .done (.ok [])

/-- A unit that makes a write, spends some gas of its own, and invokes the thrifty unit. -/
def spender : Guest := fun _ =>
  Guest.set [1] [10] fun _ =>
    .charge 50 fun
      | some (.error refusal) => .fail (.outOfGas refusal)
      | _ => .invoke (Uri.host "thrifty") ⟨"run", [], none⟩ fun
        | .error e => .fail e
        | .ok _ => .give Response.blank

def market : World :=
  World.initial (Disk.blank []) .empty
    [.named Uri.hostAuthority
        (Table.ofList [("thrifty", .guest thrifty), (Bridge.unitName, .bridge)]),
      .named Uri.storeAuthority (Table.ofList [(code.toHex, .guest spender)])]

def stalls (uri : Uri) : Prop := uri = Uri.store code ∨ uri = Uri.host "thrifty" ∨ uri = Bridge.uri

theorem guest_of_stall {uri : Uri} (mem : stalls uri) {g : Guest}
    (found : (market.resolve uri).1 = .ok (.guest g)) : g = spender ∨ g = thrifty := by
  rcases mem with rfl | rfl | rfl
  · have leads : (market.resolve (Uri.store code)).1 = .ok (.guest spender) := rfl
    cases leads.symm.trans found
    exact .inl rfl
  · have leads : (market.resolve (Uri.host "thrifty")).1 = .ok (.guest thrifty) := rfl
    cases leads.symm.trans found
    exact .inr rfl
  · have leads : (market.resolve Bridge.uri).1 = .ok .bridge := rfl
    cases leads.symm.trans found

theorem market_blind : market.Blind stalls := by
  intro uri mem g found call
  rcases guest_of_stall mem found with rfl | rfl
  · refine Program.blind_invoke (.inr (.inr rfl)) fun answer => ?_
    rcases answer with e | b
    · trivial
    · intro answer
      rcases answer with _ | refusal | _
      · exact ⟨.inr (.inl rfl), fun result => by cases result <;> trivial⟩
      · trivial
      · exact ⟨.inr (.inl rfl), fun result => by cases result <;> trivial⟩
  · exact Program.blind_invoke (.inr (.inr rfl)) fun answer => by cases answer <;> trivial

theorem market_handsOn : market.HandsOn stalls := by
  have inner : (Program.invoke (Uri.host "thrifty") ⟨"run", [], none⟩ fun
      | .error e => .fail e
      | .ok _ => .give Response.blank).HandsOn stalls :=
    ⟨.inr (.inl rfl), fun _ => trivial, fun result => by cases result <;> trivial⟩
  intro uri mem g found call
  rcases guest_of_stall mem found with rfl | rfl
  · refine Program.handsOn_invoke (.inr (.inr rfl)) (fun _ => trivial) fun answer => ?_
    rcases answer with e | b
    · trivial
    · refine ⟨fun _ => trivial, fun answer => ?_⟩
      rcases answer with _ | refusal | _
      · exact inner
      · trivial
      · exact inner
  · exact Program.handsOn_invoke (.inr (.inr rfl)) (fun _ => trivial) fun answer => by
      cases answer <;> trivial

end Sample

/-- A call that uses 174 units succeeds in the same way with exactly so much and fails with one unit
less, at whichever of its charges that is. -/
theorem limit_threshold_spender :
    (Sample.host.enter .execute Sample.request Sample.market).1 = .ok (Response.blank, 174) ∧
    (Sample.host.enter .execute (Sample.request.withLimit 174) Sample.market).1 =
      .ok (Response.blank, 174) ∧
    ∀ limit < 174, ∃ message reported,
      (Sample.host.enter .execute (Sample.request.withLimit limit) Sample.market).1 =
        .error ⟨.insufficientGas message, reported⟩ ∧ reported ≤ limit := by
  have done : (Sample.host.enter .execute Sample.request Sample.market).1 =
      .ok (Response.blank, 174) := by decide +kernel
  have mem : Sample.stalls (Uri.store Sample.request.checksum) := .inl rfl
  have threshold := Vm.limit_threshold Sample.host .execute Sample.request Sample.market
    Sample.market_blind mem (Vm.yields_of_handsOn Sample.market_handsOn mem) done
  refine ⟨done, (threshold.1 174 (UInt64.le_refl _)).1, fun limit short => ?_⟩
  obtain ⟨message, reported, failed, within, -⟩ := threshold.2 limit short
  exact ⟨message, reported, failed, within⟩

end ContractHost
