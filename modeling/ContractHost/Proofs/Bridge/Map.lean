import ContractHost.Proofs.Bridge.Answer
import ContractHost.Proofs.State.Layer
import ContractHost.Proofs.Wire.Records

/-!
What requests mean, told without the bridge.

`Request.onMap` says what a request does to a plain key-value map and what it is
told, and `Request.weight` for how many bytes it is charged. The bridge works on a
guard instead, which shows a map to whoever may use it (`World.view`): a request is
priced, answered and carried out there as on the map that the guard shows
(`Bridge.Reached`), and what the guard holds in the end is put into the scope as on
the map that the scope shows.
-/

namespace ContractHost

namespace Request

/-- What a request does to a plain key-value map: its encoded answer, and the map afterwards. -/
def onMap (values : Bytes → Option Bytes) : Request → Bytes × (Bytes → Option Bytes)
  | .set k v => (Wire.toMsgpack true, Function.update values k (some v))
  | .get k => (Wire.toMsgpack ((values k).getD []), values)
  | .has k => (Wire.toMsgpack (decide ((values k).getD [] ≠ [])), values)
  | .remove k => (Wire.toMsgpack true, Function.update values k none)
  | .write k (some v) => (Wire.toMsgpack (0 : UInt32), Function.update values k (some v))
  | .write k none => (Wire.toMsgpack (0 : UInt32), Function.update values k none)

def allOnMap (values : Bytes → Option Bytes) (requests : List Request) : Bytes → Option Bytes :=
  requests.foldl (fun values q => (q.onMap values).2) values

/-- How many bytes a request is charged for: those of its key, and those of the value that it
brings, or that it is told. -/
def weight (values : Bytes → Option Bytes) : Request → Nat
  | .set k v => k.length + v.length
  | .get k => k.length + (values k).elim 0 List.length
  | .has k => k.length
  | .remove k => k.length
  | .write k (some v) => k.length + v.length
  | .write k none => k.length

theorem answer_eq_onMap (values : Bytes → Option Bytes) (q : Request) :
    q.answer values = (q.onMap values).1 := by
  cases q with
  | set k v => rfl
  | get k => rfl
  | has k =>
      have present : (!((values k).getD []).isEmpty) = decide ((values k).getD [] ≠ []) := by
        cases (values k).getD [] <;> rfl
      exact congrArg Wire.toMsgpack present
  | remove k => rfl
  | write k v => cases v <;> rfl

theorem bytesTouched_eq_weight (values : Bytes → Option Bytes) (q : Request) :
    q.bytesTouched values = q.weight values := by
  cases q with
  | set k v => rfl
  | get k =>
      rw [bytesTouched, weight]
      cases values k <;> rfl
  | has k => rfl
  | remove k => rfl
  | write k v => cases v <;> rfl

theorem onMap_snd (values : Bytes → Option Bytes) (q : Request) :
    (q.onMap values).2 = valuesAfter values q.change?.toList := by
  cases q with
  | set k v => rfl
  | get k => rfl
  | has k => rfl
  | remove k => rfl
  | write k v => cases v <;> rfl

theorem allOnMap_eq (values : Bytes → Option Bytes) (requests : List Request) :
    allOnMap values requests = valuesAfter values (requests.filterMap change?) := by
  induction requests generalizing values with
  | nil => rfl
  | cons q rest ih =>
      show allOnMap (q.onMap values).2 rest = _
      rw [ih, onMap_snd, List.filterMap_cons]
      cases q.change? <;> rfl

end Request

namespace Guard

theorem get_applyChange (guard : Guard) (h : Heap) (k : Bytes) (v : Option Bytes) :
    (guard.apply (some (k, v))).get h = Function.update (guard.get h) k v := by
  funext j
  by_cases same : j = k
  · subst same
    simp [get, apply]
  · simp [get, apply, Table.get?_insert_of_ne _ _ same, Function.update_of_ne same]

@[simp] theorem scope_apply (guard : Guard) (change : Option Change) :
    (guard.apply change).scope = guard.scope := by
  cases change <;> rfl

theorem get_applyAll (guard : Guard) (h : Heap) (changes : List Change) :
    (guard.applyAll changes).get h = valuesAfter (guard.get h) changes := by
  induction changes generalizing guard with
  | nil => rfl
  | cons c rest ih =>
      refine (ih (guard.apply (some c))).trans ?_
      rw [guard.get_applyChange h c.1 c.2]
      rfl

theorem get_apply_change? (guard : Guard) (h : Heap) (q : Request) :
    (guard.apply q.change?).get h = (q.onMap (guard.get h)).2 := by
  rw [apply_eq_applyAll, get_applyAll, q.onMap_snd]

end Guard

/-- The values that the call sees to which the host state is bound. -/
def World.view (w : World) : Bytes → Option Bytes :=
  match w.binding.bind fun b => w.guards.get? b.guard with
  | some guard => guard.get w.heap
  | none => fun _ => none

theorem World.view_of_bound {w : World} {invoker : Option TankRef} {r : TankRef} {g : GuardId}
    {guard : Guard} (bound : w.boundTo invoker = some (r, g, guard)) :
    w.view = guard.get w.heap := by
  obtain ⟨-, opened, live⟩ := World.boundTo_eq_some_iff.1 bound
  simp [World.view, opened, live]

/-- A request reached the live guard: the answer is that of the map that the guard showed, and what
the guard shows afterwards is the map that the request leaves. -/
structure Bridge.Reached (q : Request) (found : World) (answer : Except InvokeError Bytes)
    (left : World) : Prop where
  told : answer = .ok (q.onMap found.view).1
  shows : left.view = (q.onMap found.view).2
  heap : left.heap = found.heap

theorem Bridge.Reached.of_bound {w : World} {invoker : Option TankRef} {r : TankRef} {g : GuardId}
    {guard : Guard} (bound : w.boundTo invoker = some (r, g, guard)) (t : Gas.Tank) (q : Request) :
    Reached q w (.ok (q.answer (guard.get w.heap)))
      ((w.setTank t r).setGuard g (guard.apply q.change?)) where
  told := by rw [q.answer_eq_onMap, World.view_of_bound bound]
  shows := by
    rw [World.view_of_bound bound, World.view_of_bound (World.boundTo_setGuard bound t _),
      World.heap_setGuard, World.heap_setTank, guard.get_apply_change?]
  heap := World.heap_setTank ..

/-- The call names the method of a request and spells its arguments; what stands behind them does
not count. -/
structure Call.Spells (call : Call) (q : Request) : Prop where
  method_eq : call.method = q.method.name
  args_eq : ∃ rest, call.args = q.args ++ rest
  short : q.Short

def Request.call (q : Request) : Call := ⟨q.method.name, q.args, none⟩

theorem Request.spells_call {q : Request} (short : q.Short) : q.call.Spells q :=
  ⟨rfl, ⟨[], (List.append_nil _).symm⟩, short⟩

theorem Call.request?_of_spells {call : Call} {q : Request} (spells : call.Spells q) :
    call.request? = some q := by
  obtain ⟨rest, args⟩ := spells.args_eq
  rw [request?, spells.method_eq, q.method.parse_name, args]
  exact Request.decode?_args spells.short rest

end ContractHost
