import ContractHost.Vm.Invoke

/-!
The laws of the small changes that a world is made to undergo: charging a tank
touches that tank and nothing else, a new guard has a number of its own and
holds nothing, and ending a guard leaves nothing bound.
-/

namespace ContractHost

namespace World

@[simp] theorem heap_setTank (w : World) (t : Gas.Tank) (r : TankRef) :
    (w.setTank t r).heap = w.heap := by cases r <;> rfl

@[simp] theorem binding_setTank (w : World) (t : Gas.Tank) (r : TankRef) :
    (w.setTank t r).binding = w.binding := by cases r <;> rfl

@[simp] theorem guards_setTank (w : World) (t : Gas.Tank) (r : TankRef) :
    (w.setTank t r).guards = w.guards := by cases r <;> rfl

@[simp] theorem tank_setTank_self (w : World) (t : Gas.Tank) (r : TankRef) :
    (w.setTank t r).tank r = t := by
  cases r with
  | call => rfl
  | named n => simp [tank, setTank]

@[simp] theorem tank_setGuard (w : World) (g : GuardId) (guard : Guard) (r : TankRef) :
    (w.setGuard g guard).tank r = w.tank r := by
  cases r <;> rfl

@[simp] theorem heap_setGuard (w : World) (g : GuardId) (guard : Guard) :
    (w.setGuard g guard).heap = w.heap := rfl

@[simp] theorem boundTo_setTank (w : World) (t : Gas.Tank) (r : TankRef)
    (invoker : Option TankRef) : (w.setTank t r).boundTo invoker = w.boundTo invoker := by
  cases r <;> rfl

@[simp] theorem pending_setTank (w : World) (t : Gas.Tank) (r : TankRef) (g : GuardId) :
    (w.setTank t r).pending g = w.pending g := by
  simp [pending]

/-- An invoker gets through to a guard exactly if the host state is bound to
that guard and the invoker carries the tank that opens it. -/
theorem boundTo_eq_some_iff {w : World} {invoker : Option TankRef} {r : TankRef} {g : GuardId}
    {guard : Guard} :
    w.boundTo invoker = some (r, g, guard) ↔
      invoker = some r ∧ w.binding = some ⟨r, g⟩ ∧ w.guards.get? g = some guard := by
  constructor
  · intro h
    unfold boundTo at h
    split at h
    · cases h
    · next s =>
      split at h
      · next b hb =>
        split at h
        · next owner =>
          obtain ⟨guard', hg, eq⟩ := Option.map_eq_some_iff.1 h
          cases b
          cases eq
          cases owner
          exact ⟨rfl, hb, hg⟩
        · cases h
      · cases h
  · rintro ⟨rfl, hb, hg⟩
    simp [boundTo, hb, hg]

theorem boundTo_setGuard {w : World} {invoker : Option TankRef} {r : TankRef} {g : GuardId}
    {guard : Guard} (bound : w.boundTo invoker = some (r, g, guard)) (t : Gas.Tank)
    (other : Guard) :
    ((w.setTank t r).setGuard g other).boundTo invoker = some (r, g, other) := by
  obtain ⟨carried, opened, -⟩ := boundTo_eq_some_iff.1 bound
  refine boundTo_eq_some_iff.2 ⟨carried, ?_, ?_⟩
  · exact (binding_setTank w t r).trans opened
  · exact Table.get?_insert_self _ _ _

theorem get?_freshGuard (w : World) : w.guards.get? w.freshGuard = none := by
  have above (l : List Nat) : ∀ n ∈ l, n < (l.map (· + 1)).foldr max 0 := by
    induction l with
    | nil => simp
    | cons m l ih =>
        intro n hn
        rw [List.map_cons, List.foldr_cons]
        rcases List.mem_cons.1 hn with rfl | hn
        · omega
        · have := ih n hn
          omega
  cases h : w.guards.get? w.freshGuard with
  | none => rfl
  | some guard =>
      have mem : w.freshGuard ∈ w.guards.keys :=
        List.mem_map.2 ⟨_, Entries.mem_of_find? h, rfl⟩
      exact absurd (above _ _ mem) (Nat.lt_irrefl _)

theorem bind_of_free {w : World} (free : w.binding = none) (scope : Layer) (owner : TankRef) :
    w.bind scope owner = .ok (w.freshGuard,
      { w with binding := some ⟨owner, w.freshGuard⟩,
               guards := w.guards.insert w.freshGuard ⟨scope, ∅⟩ }) := by
  simp [bind, free]

theorem bind_of_bound {w : World} {b : Binding} (bound : w.binding = some b) (scope : Layer)
    (owner : TankRef) : w.bind scope owner = .error .alreadyBound := by
  simp [bind, bound]

/-- The world with a tank in which a guard was bound to that tank. -/
def opened (w : World) (scope : Layer) (t : Gas.Tank) : World :=
  { w with callTank := t, binding := some ⟨.call, w.freshGuard⟩,
           guards := w.guards.insert w.freshGuard ⟨scope, ∅⟩ }

theorem boundTo_opened (w : World) (scope : Layer) (t : Gas.Tank) :
    (w.opened scope t).boundTo (some .call) = some (.call, w.freshGuard, ⟨scope, ∅⟩) :=
  boundTo_eq_some_iff.2 ⟨rfl, rfl, Table.get?_insert_self _ _ _⟩

theorem chargeInvoker_call (w : World) (units : UInt64) :
    w.chargeInvoker units (some .call) =
      (some (w.callTank.charge units).2, { w with callTank := (w.callTank.charge units).1 }) :=
  rfl

theorem release_of_live {w : World} {g : GuardId} {guard : Guard}
    (live : w.guards.get? g = some guard) :
    w.release g = { w with binding := none, guards := w.guards.erase g } := by
  simp [release, live]

theorem commit_of_live {w : World} {g : GuardId} {guard : Guard}
    (live : w.guards.get? g = some guard) :
    w.commit g =
      { w with heap := guard.scope.putAll w.heap guard.writes.entries,
               binding := none, guards := w.guards.erase g } := by
  simp [commit, release, live]

theorem release_of_gone {w : World} {g : GuardId} (gone : w.guards.get? g = none) :
    w.release g = w := by
  simp [release, gone]

theorem commit_of_gone {w : World} {g : GuardId} (gone : w.guards.get? g = none) :
    w.commit g = w := by
  simp [commit, gone]

@[simp] theorem callTank_release (w : World) (g : GuardId) :
    (w.release g).callTank = w.callTank := by
  unfold release
  split <;> rfl

@[simp] theorem callTank_commit (w : World) (g : GuardId) :
    (w.commit g).callTank = w.callTank := by
  unfold commit
  split
  · exact callTank_release _ g
  · rfl

theorem charge_of_ok {w : World} {r : TankRef} {units : UInt64} {t : Gas.Tank}
    (paid : (w.tank r).charge units = (t, .ok ())) :
    w.charge r units = (.ok (), w.setTank t r) := by
  simp [charge, paid]

theorem charge_of_error {w : World} {r : TankRef} {units : UInt64} {t : Gas.Tank}
    {refusal : Gas.Refusal} (refused : (w.tank r).charge units = (t, .error refusal)) :
    w.charge r units = (.error refusal, w.setTank t r) := by
  simp [charge, refused]

end World

namespace Guard

theorem get_congr {l m : Layer} {h h' : Heap} (view : l.get h = m.get h') (writes : Writes) :
    Guard.get ⟨l, writes⟩ h = Guard.get ⟨m, writes⟩ h' := by
  funext k
  unfold Guard.get
  rw [view]

def applyAll (g : Guard) (changes : List Change) : Guard :=
  { g with writes := changes.foldl (fun w c => w.insert c.1 c.2) g.writes }

theorem applyAll_append (g : Guard) (first second : List Change) :
    g.applyAll (first ++ second) = (g.applyAll first).applyAll second := by
  simp [applyAll]

theorem apply_eq_applyAll (g : Guard) (change : Option Change) :
    g.apply change = g.applyAll change.toList := by
  cases change <;> rfl

end Guard

end ContractHost
