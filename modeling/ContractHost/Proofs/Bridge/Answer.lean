import ContractHost.Proofs.Vm.World

/-!
The five ways in which the bridge can answer an invocation, each with the
world that it leaves. Whatever is proved about requests goes through these
cases, so nothing but `answers` looks into the bridge itself.
-/

namespace ContractHost

/-- The request that an invocation of the bridge makes, if it makes one. -/
def Call.request? (c : Call) : Option Request :=
  match HostMethod.parse c.method with
  | .ok method => Request.decode? c.args method
  | .error _ => none

theorem Call.request?_eq_some {c : Call} {q : Request} (made : c.request? = some q) :
    ∃ method, HostMethod.parse c.method = .ok method ∧ Request.decode? c.args method = some q := by
  unfold request? at made
  split at made
  · next method known => exact ⟨method, known, made⟩
  · cases made

theorem HostMethod.parse_error {s : String} {e : InvokeError} (h : parse s = .error e) :
    e = .unknownMethod s := by
  unfold parse at h
  split at h
  · cases h
  · exact (Except.error.inj h).symm

theorem HostMethod.parse_name (method : HostMethod) : parse method.name = .ok method := by
  cases method <;> rfl

theorem HostMethod.parse_of_ne {s : String} (none : ∀ m : HostMethod, s ≠ m.name) :
    parse s = .error (.unknownMethod s) := by
  have missed : (all.find? fun m => m.name = s) = Option.none :=
    List.find?_eq_none.2 fun m _ found => none m (of_decide_eq_true found).symm
  simp only [parse, missed]

namespace Bridge

/-- How the bridge answers an invocation in a world, and the world afterwards. -/
inductive Answers (costs : Gas.Costs) (invoker : Option TankRef) (call : Call) (w : World) :
    Except InvokeError Bytes → World → Prop
  /-- The method is none of the five. -/
  | unknown (noMethod : HostMethod.parse call.method = .error (.unknownMethod call.method)) :
      Answers costs invoker call w (.error (.unknownMethod call.method)) w
  /-- Nothing is bound to the invoker; the arguments are not looked at. -/
  | unbound {method : HostMethod} (known : HostMethod.parse call.method = .ok method)
      (shut : w.boundTo invoker = none) :
      Answers costs invoker call w (.error .unbound) w
  /-- The arguments are malformed. -/
  | malformed {method : HostMethod} {r : TankRef} {g : GuardId} {guard : Guard}
      (known : HostMethod.parse call.method = .ok method)
      (bound : w.boundTo invoker = some (r, g, guard)) (bad : call.request? = none) :
      Answers costs invoker call w (.error .malformed) w
  /-- The price is refused. -/
  | refused {r : TankRef} {g : GuardId} {guard : Guard} {q : Request} {t : Gas.Tank}
      {refusal : Gas.Refusal} (bound : w.boundTo invoker = some (r, g, guard))
      (made : call.request? = some q)
      (dear : (w.tank r).charge (costs.of (q.bytesTouched (guard.get w.heap))) =
        (t, .error refusal)) :
      Answers costs invoker call w (.error (.outOfGas refusal)) (w.setTank t r)
  /-- The request is paid for and carried out. -/
  | done {r : TankRef} {g : GuardId} {guard : Guard} {q : Request} {t : Gas.Tank}
      (bound : w.boundTo invoker = some (r, g, guard)) (made : call.request? = some q)
      (paid : (w.tank r).charge (costs.of (q.bytesTouched (guard.get w.heap))) = (t, .ok ())) :
      Answers costs invoker call w (.ok (q.answer (guard.get w.heap)))
        ((w.setTank t r).setGuard g (guard.apply q.change?))

theorem answers (costs : Gas.Costs) (invoker : Option TankRef) (call : Call) (w : World) :
    Answers costs invoker call w (answer costs invoker call w).1 (answer costs invoker call w).2 := by
  unfold answer
  cases known : HostMethod.parse call.method with
  | error e =>
      obtain rfl := HostMethod.parse_error known
      exact .unknown known
  | ok method =>
      have request : call.request? = Request.decode? call.args method := by
        simp [Call.request?, known]
      simp only [dispatch]
      cases bound : w.boundTo invoker with
      | none => exact .unbound known bound
      | some reached =>
          obtain ⟨r, g, guard⟩ := reached
          cases made : Request.decode? call.args method with
          | none => exact .malformed known bound (request.trans made)
          | some q =>
              dsimp only
              rcases charged : (w.tank r).charge
                (costs.of (q.bytesTouched (guard.get w.heap))) with ⟨t, refusal | _⟩
              · rw [World.charge_of_error charged]
                exact .refused bound (request.trans made) charged
              · rw [World.charge_of_ok charged]
                exact .done bound (request.trans made) charged

theorem Answers.eq {costs : Gas.Costs} {invoker : Option TankRef} {call : Call} {w w' : World}
    {x : Except InvokeError Bytes} (a : Answers costs invoker call w x w') :
    answer costs invoker call w = (x, w') := by
  cases a with
  | unknown noMethod => simp only [answer, noMethod]
  | unbound known shut => simp only [answer, known, dispatch, shut]
  | malformed known bound bad =>
      simp only [Call.request?, known] at bad
      simp only [answer, known, dispatch, bound, bad]
  | refused bound made dear =>
      obtain ⟨method, known, decoded⟩ := Call.request?_eq_some made
      simp only [answer, known, dispatch, bound, decoded, World.charge_of_error dear]
  | done bound made paid =>
      obtain ⟨method, known, decoded⟩ := Call.request?_eq_some made
      simp only [answer, known, dispatch, bound, decoded, World.charge_of_ok paid]

theorem Answers.unique {costs : Gas.Costs} {invoker : Option TankRef} {call : Call} {w v v' : World}
    {x y : Except InvokeError Bytes} (a : Answers costs invoker call w x v)
    (b : Answers costs invoker call w y v') : x = y ∧ v = v' :=
  Prod.mk.inj (a.eq.symm.trans b.eq)

end Bridge

end ContractHost
