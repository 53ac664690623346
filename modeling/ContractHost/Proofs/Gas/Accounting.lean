import ContractHost.Guest.Request
import ContractHost.Proofs.Bridge.Map
import ContractHost.Proofs.Gas.Tank
import ContractHost.Proofs.Vm.Stages

/-!
The gas of a call, to the unit. Four parties charge the one tank of a call: the
host before the unit runs, the bridge for each request that it answers, the
units themselves, and the host once more for the result. What the call reports
as used is the sum of what they were granted, and it is within the limit.
-/

namespace ContractHost

namespace LogEntry

/-- If the entry is a request that was answered, the answer is that of a map with
the values that the call saw, from which the request is priced too. -/
def Told : LogEntry → Prop
  | .request call found (.ok b) _ =>
    ∃ q, call.request? = some q ∧ b = (q.onMap found.view).1
  | _ => True

theorem told_request {costs : Gas.Costs} {invoker : Option TankRef} {call : Call} {w w' : World}
    {answer : Except InvokeError Bytes} (a : Bridge.Answers costs invoker call w answer w') :
    (LogEntry.request call w answer w').Told := by
  cases a with
  | unknown noMethod => trivial
  | unbound known shut => trivial
  | malformed known bound bad => trivial
  | refused bound made dear => trivial
  | @done r g guard q t bound made paid =>
      exact ⟨q, made, Except.ok.inj (Bridge.Reached.of_bound bound t q).told⟩

theorem told_stepwise (vm : Vm) (invoker : Option TankRef) :
    vm.Stepwise invoker fun _ log _ => ∀ e ∈ log, e.Told where
  refl _ := List.forall_mem_nil _
  trans first second := List.forall_mem_append.2 ⟨first, second⟩
  resolve _ _ := List.forall_mem_nil _
  request a := List.forall_mem_singleton.2 (told_request a)
  charge _ _ := by
    rw [List.forall_mem_singleton]
    trivial
  note _ _ := List.forall_mem_nil _

/-- What the bridge takes for an entry: the flat part and the part for each byte of
the request's weight, if it is answered, and nothing otherwise. -/
def hostPrice (costs : Gas.Costs) : LogEntry → Nat
  | .request call found (.ok _) _ =>
    match call.request? with
    | some q =>
      min Gas.greatest.toNat (costs.op.toNat + costs.perByte.toNat * q.weight found.view)
    | none => 0
  | _ => 0

/-- What a unit takes itself: the units of a charge that was admitted. -/
def directPrice : LogEntry → Nat
  | .charge units (some (.ok ())) => units.toNat
  | _ => 0

def total (price : LogEntry → Nat) : List LogEntry → Nat
  | [] => 0
  | e :: rest => price e + total price rest

theorem total_append (price : LogEntry → Nat) (l m : List LogEntry) :
    total price (l ++ m) = total price l + total price m := by
  induction l with
  | nil => exact (Nat.zero_add _).symm
  | cons e rest ih =>
      simp only [List.cons_append, total, ih]
      omega

def hostGas (costs : Gas.Costs) (log : List LogEntry) : Nat := total (hostPrice costs) log

def directGas (log : List LogEntry) : Nat := total directPrice log

@[simp] theorem hostGas_singleton (costs : Gas.Costs) (e : LogEntry) :
    hostGas costs [e] = e.hostPrice costs := rfl

@[simp] theorem directGas_singleton (e : LogEntry) : directGas [e] = e.directPrice := rfl

end LogEntry

/-- The tank of the call has paid for what is in the log, and for nothing else. -/
def Paid (costs : Gas.Costs) (w : World) (log : List LogEntry) (w' : World) : Prop :=
  ∀ limit n, w.callTank.Spent limit n →
    w'.callTank.Spent limit (n + LogEntry.hostGas costs log + LogEntry.directGas log)

namespace Paid

variable {costs : Gas.Costs}

theorem of_same {w w' : World} {log : List LogEntry} (tank : w'.callTank = w.callTank)
    (host : LogEntry.hostGas costs log = 0) (direct : LogEntry.directGas log = 0) :
    Paid costs w log w' := by
  intro limit n spent
  rw [host, direct, tank]
  exact spent

theorem trans {u v w : World} {l m : List LogEntry} (first : Paid costs u l v)
    (second : Paid costs v m w) : Paid costs u (l ++ m) w := by
  intro limit n spent
  have sum : n + LogEntry.hostGas costs (l ++ m) + LogEntry.directGas (l ++ m) =
      n + LogEntry.hostGas costs l + LogEntry.directGas l + LogEntry.hostGas costs m +
        LogEntry.directGas m := by
    simp only [LogEntry.hostGas, LogEntry.directGas, LogEntry.total_append]
    omega
  rw [sum]
  exact second limit _ (first limit n spent)

theorem request {call : Call} {w w' : World} {answer : Except InvokeError Bytes}
    (a : Bridge.Answers costs (some .call) call w answer w') :
    Paid costs w [.request call w answer w'] w' := by
  cases a with
  | unknown noMethod => exact of_same rfl rfl rfl
  | unbound known shut => exact of_same rfl rfl rfl
  | malformed known bound bad => exact of_same rfl rfl rfl
  | refused bound made dear =>
      obtain ⟨carried, -, -⟩ := World.boundTo_eq_some_iff.1 bound
      cases carried
      exact fun limit n spent => spent.charge_error dear
  | done bound made paid =>
      obtain ⟨carried, -, -⟩ := World.boundTo_eq_some_iff.1 bound
      cases carried
      intro limit n spent
      have after := spent.charge_ok paid
      rw [Gas.Costs.toNat_of, ← World.view_of_bound bound, Request.bytesTouched_eq_weight] at after
      simp only [LogEntry.hostGas_singleton, LogEntry.directGas_singleton, LogEntry.hostPrice,
        LogEntry.directPrice, made]
      exact after

theorem stepwise (vm : Vm) : vm.Stepwise (some .call) (Paid vm.gas.hostCosts) where
  refl _ := of_same rfl rfl rfl
  trans := trans
  resolve _ _ := of_same rfl rfl rfl
  request := request
  charge units w := by
    rw [World.chargeInvoker_call]
    rcases charged : w.callTank.charge units with ⟨t, refusal | _⟩
    · exact fun limit n spent => spent.charge_error charged
    · intro limit n spent
      simp only [LogEntry.hostGas_singleton, LogEntry.directGas_singleton]
      exact spent.charge_ok charged
  note _ _ := of_same rfl rfl rfl

end Paid

namespace Vm

/-- What a call pays before its unit runs: the base charge, if the message can
be read and the charge is admitted. -/
def baseGas (vm : Vm) (r : CallRequest) : Nat :=
  match Message.decode r.msg, ((Gas.Tank.new r.limit r.meter).charge vm.gas.invokeBase).2 with
  | .ok _, .ok () => vm.gas.invokeBase.toNat
  | _, _ => 0

/-- What a call pays for its result: the price of the bytes that the unit gave,
if the call gets so far and the charge is admitted. -/
def resultGas (vm : Vm) (r : CallRequest) (w : World) : Nat :=
  match vm.prepare r (r.start w) with
  | (.error _, _) => 0
  | (.ok (call, _), v) =>
    match vm.invoke (some .call) vm.maxNesting (Uri.store r.checksum) call v with
    | (.answered (.ok raw), w') =>
      let price := r.rate.mulFloor (UInt64.ofNat raw.length)
      match (w'.callTank.charge price).2 with
      | .ok () => price.toNat
      | .error _ => 0
    | _ => 0

def gasUsed : Except CallFailure (Response × UInt64) → UInt64
  | .ok (_, used) => used
  | .error failure => failure.gasUsed

theorem spent_of_prepared {vm : Vm} {r : CallRequest} {w v : World}
    {result : Except VmError (Call × GuardId)} (p : vm.Prepared r (r.start w) result v) :
    v.callTank.Spent r.limit (vm.baseGas r) := by
  have fresh := Gas.Tank.Spent.new r.limit r.meter
  have paid_base {args : Bytes} {t : Gas.Tank} (decoded : Message.decode r.msg = .ok args)
      (paid : (Gas.Tank.new r.limit r.meter).charge vm.gas.invokeBase = (t, .ok ())) :
      t.Spent r.limit (vm.baseGas r) := by
    have : vm.baseGas r = 0 + vm.gas.invokeBase.toNat := by simp [baseGas, decoded, paid]
    rw [this]
    exact fresh.charge_ok paid
  cases p with
  | noMessage bad =>
      have : vm.baseGas r = 0 := by simp [baseGas, bad]
      rw [this]
      exact fresh
  | unpaid decoded dear =>
      have dear : (Gas.Tank.new r.limit r.meter).charge vm.gas.invokeBase = (_, .error _) := dear
      have : vm.baseGas r = 0 := by simp [baseGas, decoded, dear]
      rw [this]
      exact fresh.charge_error dear
  | alreadyBound decoded paid bound => exact paid_base decoded paid
  | ready decoded paid free => exact paid_base decoded paid

theorem spent_of_ran {vm : Vm} {r : CallRequest} {w v w' : World} {call : Call} {g : GuardId}
    {outcome : Outcome} (ready : vm.prepare r (r.start w) = (.ok (call, g), v))
    (ran : vm.invoke (some .call) vm.maxNesting (Uri.store r.checksum) call v = (outcome, w')) :
    w'.callTank.Spent r.limit (vm.baseGas r +
      LogEntry.hostGas vm.gas.hostCosts (vm.callLog r w) +
      LogEntry.directGas (vm.callLog r w)) := by
  have start := vm.prepared r (r.start w)
  have paid := (Paid.stepwise vm).invoke vm.maxNesting (Uri.store r.checksum) call v
  rw [ready] at start
  rw [ran, ← callLog_of_ready ready] at paid
  exact paid r.limit _ (spent_of_prepared start)

theorem spent_of_performed (vm : Vm) (r : CallRequest) (w : World) :
    (vm.perform r (r.start w)).2.callTank.Spent r.limit (vm.baseGas r +
      LogEntry.hostGas vm.gas.hostCosts (vm.callLog r w) +
      LogEntry.directGas (vm.callLog r w) + vm.resultGas r w) := by
  have stages := vm.performed r (r.start w)
  generalize (vm.perform r (r.start w)).1 = result at stages
  generalize (vm.perform r (r.start w)).2 = last at stages
  cases stages with
  | unprepared early =>
      have start := vm.prepared r (r.start w)
      rw [early] at start
      have free : vm.resultGas r w = 0 := by simp [resultGas, early]
      rw [free, callLog_of_early early]
      exact spent_of_prepared start
  | @failed call g v w' outcome e ready ran bad =>
      have free : vm.resultGas r w = 0 := by
        cases outcome with
        | panicked message => simp [resultGas, ready, ran]
        | answered result =>
            cases result with
            | error e => simp [resultGas, ready, ran]
            | ok raw => cases bad
      rw [free, World.callTank_release]
      exact spent_of_ran ready ran
  | unpaid ready ran dear =>
      have free : vm.resultGas r w = 0 := by simp [resultGas, ready, ran, dear]
      rw [free, World.callTank_release]
      exact (spent_of_ran ready ran).charge_error dear
  | @noResponse call g v w' raw t ready ran paid bad =>
      have price : vm.resultGas r w = (r.rate.mulFloor (UInt64.ofNat raw.length)).toNat := by
        simp [resultGas, ready, ran, paid]
      rw [price, World.callTank_release]
      exact (spent_of_ran ready ran).charge_ok paid
  | @done call g v w' raw t response ready ran paid read =>
      have price : vm.resultGas r w = (r.rate.mulFloor (UInt64.ofNat raw.length)).toNat := by
        simp [resultGas, ready, ran, paid]
      rw [price, World.callTank_commit]
      exact (spent_of_ran ready ran).charge_ok paid

theorem told_callLog (vm : Vm) (r : CallRequest) (w : World) : ∀ e ∈ vm.callLog r w, e.Told := by
  unfold callLog
  split
  · next call g v ready =>
    exact (LogEntry.told_stepwise vm (some .call)).invoke vm.maxNesting (Uri.store r.checksum) call v
  · exact List.forall_mem_nil _

theorem gasUsed_call (vm : Vm) (r : CallRequest) (w : World) :
    gasUsed (vm.call r w).1 = (vm.perform r (r.start w)).2.callTank.used := by
  rw [call_fst, call_snd]
  cases (vm.perform r (r.start w)).1 <;> rfl

/-- The gas of a call is exact, whether it succeeds or fails: what it reports is
the sum of the base charge, the price of every request that the bridge answered,
the charges that its units made themselves, and the price of the result, up to
the greatest quantity. Every request is priced by what it was told, and the gas
is never more than the limit. -/
theorem gasUsed_enter (vm : Vm) (entry : Entry) (r : CallRequest) (w : World) :
    let log := vm.callLog (entry.request r) w
    (gasUsed (vm.enter entry r w).1).toNat =
        min Gas.greatest.toNat (vm.baseGas (entry.request r) +
          LogEntry.hostGas vm.gas.hostCosts log + LogEntry.directGas log +
          vm.resultGas (entry.request r) w) ∧
      (∀ e ∈ log, e.Told) ∧
      gasUsed (vm.enter entry r w).1 ≤ r.limit := by
  have spent := spent_of_performed vm (entry.request r) w
  rw [enter_eq_call, gasUsed_call]
  exact ⟨spent.used_eq, told_callLog vm _ w, entry.limit_request r ▸ spent.within⟩

end Vm

namespace Sample

def askAll : List Call → Program → Program
  | [], last => last
  | call :: rest, last => .invoke Bridge.uri call fun _ => askAll rest last

/-- A unit that makes a small charge and a great one, and reads a value that is not its own. -/
def clerk : Guest := fun _ =>
  .charge 5 fun _ => .charge 5000 fun _ => askAll [(Request.get [1]).call] (.give true)

/-- A unit that writes, has the clerk read, and goes on; three of its requests are in vain. -/
def teller : Guest := fun _ =>
  askAll [(Request.set [1] [7, 7]).call] <| .invoke (Uri.host "clerk") ⟨"run", [], none⟩ fun _ =>
    askAll [(Request.set [2] (List.replicate 200 0)).call, ⟨"Drop", [], none⟩,
        ⟨"Set", [0xc1], none⟩, (Request.write [3] none).call, (Request.write [3] (some [1])).call,
        (Request.has [1]).call, (Request.remove [1]).call, (Request.get [1]).call]
      (.give Response.blank)

def till : Checksum := ⟨List.replicate 32 1, rfl⟩

def branch : World :=
  World.initial (Disk.blank []) .empty
    [.named Uri.hostAuthority (Table.ofList [("clerk", .guest clerk), (Bridge.unitName, .bridge)]),
      .named Uri.storeAuthority (Table.ofList [(till.toHex, .guest teller)])]

def bank : Vm where
  gas := ⟨100, 10, 1⟩
  store := ⟨Path.ofText "data"⟩
  maxNesting := 3

def withdrawal : CallRequest where
  checksum := till
  env := Env.blank
  info := MessageInfo.blank
  msg := []
  method := "run"
  scope := .memory "vault"
  meter := 0
  limit := 300
  rate := ⟨2, 1⟩

end Sample

/-- The price of each request, and of those in vain nothing; two of the twelve entries are charges
of the clerk, and one of these was refused. -/
theorem gasUsed_enter_withdrawal :
    let log := Sample.bank.callLog Sample.withdrawal Sample.branch
    log.map (LogEntry.hostPrice Sample.bank.gas.hostCosts) =
        [13, 0, 0, 13, 0, 0, 0, 11, 12, 11, 11, 11] ∧
      log.map LogEntry.directPrice = [0, 5, 0, 0, 0, 0, 0, 0, 0, 0, 0, 0] ∧
      Sample.bank.baseGas Sample.withdrawal = 100 ∧
      Sample.bank.resultGas Sample.withdrawal Sample.branch = 74 ∧
      (Vm.gasUsed (Sample.bank.enter .execute Sample.withdrawal Sample.branch).1).toNat =
        100 + 82 + 5 + 74 := by
  intro log
  have host : LogEntry.hostGas Sample.bank.gas.hostCosts log = 82 := by decide +kernel
  have direct : LogEntry.directGas log = 5 := by decide +kernel
  have base : Sample.bank.baseGas Sample.withdrawal = 100 := by decide +kernel
  have result : Sample.bank.resultGas Sample.withdrawal Sample.branch = 74 := by decide +kernel
  refine ⟨by decide +kernel, by decide +kernel, base, result, ?_⟩
  have used := (Vm.gasUsed_enter Sample.bank .execute Sample.withdrawal Sample.branch).1
  rw [Entry.request, host, direct, base, result] at used
  exact used

end ContractHost
