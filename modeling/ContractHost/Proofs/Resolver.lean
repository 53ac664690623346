import ContractHost.Resolver

/-!
What resolvers remember makes no difference to what they answer.

A resolver for stored code keeps units that it has loaded. As long as each of
them is what its loader would make of the code in its store (`Faithful`), the
resolver answers like one that has loaded nothing (`cold`), and answering keeps
it so. Hence a chain of resolvers carries nothing from one invocation to
another, whatever stores and loaders are mixed in it.

The ways in which a resolver for stored code can answer are the cases of
`Answers`; what it answers is a function of what it serves for each checksum
(`serve`).
-/

namespace ContractHost

/-- The locator names stored code by its checksum. -/
structure Uri.Names (uri : Uri) (c : Checksum) : Prop where
  authority : uri.authority = Uri.storeAuthority
  path : Checksum.parse uri.path = .ok c

namespace Resolver

/-- The resolver as it was before it was asked anything. -/
def cold : Resolver → Resolver
  | .named authority units => .named authority units
  | .stored store loader _ _ => .fresh store loader

def store? : Resolver → Option CodeStore
  | .named _ _ => none
  | .stored store _ _ _ => some store

@[simp] theorem store?_cold (r : Resolver) : r.cold.store? = r.store? := by
  cases r <;> rfl

/-- Every unit that the resolver has kept is what it would load from the disk. -/
def Faithful (disk : Disk) : Resolver → Prop
  | .named _ _ => True
  | .stored store loader loaded _ => ∀ c u, loaded.get? c = some u →
      ∃ code, readCode store disk c = .ok code ∧ loader c code = .ok u

theorem faithful_cold (r : Resolver) (disk : Disk) : r.cold.Faithful disk := by
  cases r with
  | named authority units => trivial
  | stored store loader loaded loads =>
      intro c u kept
      cases kept

/-- How a resolver for stored code answers, and what becomes of it. -/
inductive Answers (store : CodeStore) (loader : Loader) (disk : Disk) (uri : Uri)
    (loaded : Table Checksum Invocable) (loads : Nat) :
    Except InvokeError (Option Invocable) → Resolver → Prop
  /-- The locator is none of its own. -/
  | foreign (other : uri.authority ≠ Uri.storeAuthority) :
      Answers store loader disk uri loaded loads (.ok none) (.stored store loader loaded loads)
  /-- The locator names no checksum. -/
  | malformed {e : Checksum.Error} (own : uri.authority = Uri.storeAuthority)
      (bad : Checksum.parse uri.path = .error e) :
      Answers store loader disk uri loaded loads
        (.error (.resolution (uri.text ++ ": " ++ (StoreError.ofChecksum e).message)))
        (.stored store loader loaded loads)
  /-- The unit was kept. -/
  | kept {c : Checksum} {u : Invocable} (names : uri.Names c) (held : loaded.get? c = some u) :
      Answers store loader disk uri loaded loads (.ok (some u)) (.stored store loader loaded loads)
  /-- The code cannot be read. -/
  | missing {c : Checksum} {e : StoreError} (names : uri.Names c) (fresh : loaded.get? c = none)
      (absent : readCode store disk c = .error e) :
      Answers store loader disk uri loaded loads (.error (.store e))
        (.stored store loader loaded loads)
  /-- The loader makes no unit of the code. -/
  | refused {c : Checksum} {code : Bytes} {e : InvokeError} (names : uri.Names c)
      (fresh : loaded.get? c = none) (read : readCode store disk c = .ok code)
      (unfit : loader c code = .error e) :
      Answers store loader disk uri loaded loads (.error e)
        (.stored store loader loaded (loads + 1))
  /-- The unit is loaded. -/
  | made {c : Checksum} {code : Bytes} {u : Invocable} (names : uri.Names c)
      (fresh : loaded.get? c = none) (read : readCode store disk c = .ok code)
      (unit : loader c code = .ok u) :
      Answers store loader disk uri loaded loads (.ok (some u))
        (.stored store loader (loaded.insert c u) (loads + 1))

variable {store : CodeStore} {loader : Loader} {disk : Disk}

theorem answers (store : CodeStore) (loader : Loader) (disk : Disk) (uri : Uri)
    (loaded : Table Checksum Invocable) (loads : Nat) :
    Answers store loader disk uri loaded loads
      (resolve disk uri (.stored store loader loaded loads)).1
      (resolve disk uri (.stored store loader loaded loads)).2 := by
  simp only [resolve]
  split
  · next other => exact .foreign other
  · next own =>
    have own := Decidable.of_not_not own
    cases path : Checksum.parse uri.path with
    | error e => exact .malformed own path
    | ok c =>
        dsimp only
        cases held : loaded.get? c with
        | some u => exact .kept ⟨own, path⟩ held
        | none =>
            dsimp only
            cases read : readCode store disk c with
            | error e => exact .missing ⟨own, path⟩ held read
            | ok code =>
                dsimp only
                cases unit : loader c code with
                | error e => exact .refused ⟨own, path⟩ held read unit
                | ok u => exact .made ⟨own, path⟩ held read unit

/-- What is served for a checksum, given the units that were kept. -/
def serve (store : CodeStore) (loader : Loader) (disk : Disk) (loaded : Table Checksum Invocable)
    (c : Checksum) : Except InvokeError Invocable :=
  match loaded.get? c with
  | some u => .ok u
  | none =>
    match readCode store disk c with
    | .error e => .error (.store e)
    | .ok code => loader c code

theorem resolve_fst (loaded : Table Checksum Invocable) (loads : Nat) (uri : Uri) :
    (resolve disk uri (.stored store loader loaded loads)).1 =
      if uri.authority ≠ Uri.storeAuthority then .ok none
      else
        match Checksum.parse uri.path with
        | .error e =>
          .error (.resolution (uri.text ++ ": " ++ (StoreError.ofChecksum e).message))
        | .ok c => (serve store loader disk loaded c).map some := by
  have a := answers store loader disk uri loaded loads
  generalize resolve disk uri (.stored store loader loaded loads) = answered at a ⊢
  obtain ⟨x, r⟩ := answered
  cases a with
  | foreign other => rw [if_pos other]
  | malformed own bad => simp [own, bad]
  | kept names held => simp [names.authority, names.path, serve, held, Except.map]
  | missing names fresh absent =>
      simp [names.authority, names.path, serve, fresh, absent, Except.map]
  | refused names fresh read unfit =>
      simp [names.authority, names.path, serve, fresh, read, unfit, Except.map]
  | made names fresh read unit =>
      simp [names.authority, names.path, serve, fresh, read, unit, Except.map]

theorem resolve_of_serve {loaded loaded' : Table Checksum Invocable}
    (same : ∀ c, serve store loader disk loaded c = serve store loader disk loaded' c) (n m : Nat)
    (uri : Uri) :
    (resolve disk uri (.stored store loader loaded n)).1 =
      (resolve disk uri (.stored store loader loaded' m)).1 := by
  rw [resolve_fst, resolve_fst, funext same]

/-- A resolver answers what it would answer had it loaded nothing. -/
theorem resolve_cold {r : Resolver} (faithful : r.Faithful disk) (uri : Uri) :
    (r.cold.resolve disk uri).1 = (r.resolve disk uri).1 := by
  cases r with
  | named authority units => rfl
  | stored store loader loaded loads =>
      refine resolve_of_serve (fun c => ?_) 0 loads uri
      cases held : loaded.get? c with
      | none => simp only [serve, Table.get?_empty, held]
      | some u =>
          obtain ⟨code, read, unit⟩ := faithful c u held
          simp only [serve, Table.get?_empty, held, read, unit]

theorem resolve_snd {r : Resolver} (faithful : r.Faithful disk) (uri : Uri) :
    (r.resolve disk uri).2.cold = r.cold ∧
      (r.resolve disk uri).2.Faithful disk := by
  cases r with
  | named authority units => exact ⟨rfl, trivial⟩
  | stored store loader loaded loads =>
      have a := answers store loader disk uri loaded loads
      generalize resolve disk uri (.stored store loader loaded loads) = answered at a ⊢
      obtain ⟨x, r⟩ := answered
      cases a with
      | foreign | malformed | kept | missing | refused => exact ⟨rfl, faithful⟩
      | @made c code u names fresh read unit =>
          refine ⟨rfl, fun d v held => ?_⟩
          by_cases same : d = c
          · subst same
            cases (Table.get?_insert_self _ _ _).symm.trans held
            exact ⟨code, read, unit⟩
          · rw [Table.get?_insert_of_ne _ _ same] at held
            exact faithful d v held

/-- Kept units are still faithful on a disk from which all codes are read that were read before. -/
theorem Faithful.mono {r : Resolver} {later : Disk} (faithful : r.Faithful disk)
    (read : ∀ store ∈ r.store?, ∀ c code,
      readCode store disk c = .ok code → readCode store later c = .ok code) :
    r.Faithful later := by
  cases r with
  | named authority units => trivial
  | stored store loader loaded loads =>
      intro c u kept
      obtain ⟨code, stored, made⟩ := faithful c u kept
      exact ⟨code, read store rfl c code stored, made⟩

theorem resolveChain_cold {chain : List Resolver}
    (faithful : ∀ r ∈ chain, r.Faithful disk) (uri : Uri) :
    (resolveChain disk uri (chain.map cold)).1 =
      (resolveChain disk uri chain).1 := by
  induction chain with
  | nil => rfl
  | cons r rest ih =>
      obtain ⟨first, others⟩ := List.forall_mem_cons.1 faithful
      have same := resolve_cold first uri
      simp only [List.map_cons, resolveChain]
      generalize r.cold.resolve disk uri = asked at same ⊢
      generalize r.resolve disk uri = asked' at same ⊢
      obtain ⟨a, r'⟩ := asked
      obtain ⟨b, r''⟩ := asked'
      obtain rfl : a = b := same
      rcases a with e | _ | u
      · rfl
      · exact ih others
      · rfl

theorem resolveChain_snd {chain : List Resolver}
    (faithful : ∀ r ∈ chain, r.Faithful disk) (uri : Uri) :
    (resolveChain disk uri chain).2.map cold = chain.map cold ∧
      ∀ r ∈ (resolveChain disk uri chain).2, r.Faithful disk := by
  induction chain with
  | nil => exact ⟨rfl, faithful⟩
  | cons r rest ih =>
      obtain ⟨first, others⟩ := List.forall_mem_cons.1 faithful
      obtain ⟨cold, kept⟩ := resolve_snd first uri
      obtain ⟨colds, rests⟩ := ih others
      simp only [resolveChain]
      generalize r.resolve disk uri = asked at cold kept ⊢
      rcases asked with ⟨e | _ | u, r'⟩
      · exact ⟨congrArg (· :: _) cold, List.forall_mem_cons.2 ⟨kept, others⟩⟩
      · exact ⟨List.cons_eq_cons.2 ⟨cold, colds⟩, List.forall_mem_cons.2 ⟨kept, rests⟩⟩
      · exact ⟨congrArg (· :: _) cold, List.forall_mem_cons.2 ⟨kept, others⟩⟩

/-- The stores that a resolver serves hold the same codes on two disks. -/
def SameCodes (disk other : Disk) (r : Resolver) : Prop :=
  ∀ store ∈ r.store?, ∀ c, readCode store disk c = readCode store other c

/-- Of the disk nothing but the codes can be told from what a resolver answers. -/
theorem resolve_congr {other : Disk} {r : Resolver} (codes : r.SameCodes disk other) (uri : Uri) :
    r.resolve disk uri = r.resolve other uri := by
  cases r with
  | named authority units => rfl
  | stored store loader loaded loads => simp only [resolve, codes store rfl]

theorem resolveChain_congr {other : Disk} {chain : List Resolver}
    (codes : ∀ r ∈ chain, r.SameCodes disk other) (uri : Uri) :
    resolveChain disk uri chain = resolveChain other uri chain := by
  induction chain with
  | nil => rfl
  | cons r rest ih =>
      obtain ⟨first, others⟩ := List.forall_mem_cons.1 codes
      simp only [resolveChain, resolve_congr first, ih others]

theorem serve_insert {loaded : Table Checksum Invocable} {c : Checksum} {code : Bytes}
    {u : Invocable} (fresh : loaded.get? c = none) (read : readCode store disk c = .ok code)
    (unit : loader c code = .ok u) (d : Checksum) :
    serve store loader disk (loaded.insert c u) d = serve store loader disk loaded d := by
  by_cases same : d = c
  · subst same
    simp only [serve, Table.get?_insert_self, fresh, read, unit]
  · simp only [serve, Table.get?_insert_of_ne _ _ same]

/-- Having been asked for a unit makes no difference to later answers. -/
theorem resolve_again (r : Resolver) (asked uri : Uri) :
    ((r.resolve disk asked).2.resolve disk uri).1 =
      (r.resolve disk uri).1 := by
  cases r with
  | named authority units => rfl
  | stored store loader loaded loads =>
      have a := answers store loader disk asked loaded loads
      generalize resolve disk asked (.stored store loader loaded loads) = answered at a ⊢
      obtain ⟨x, r⟩ := answered
      cases a with
      | foreign | malformed | kept | missing | refused =>
          exact resolve_of_serve (fun _ => rfl) _ loads uri
      | made names fresh read unit =>
          exact resolve_of_serve (serve_insert fresh read unit) _ loads uri

theorem resolveChain_again (chain : List Resolver) (asked uri : Uri) :
    (resolveChain disk uri (resolveChain disk asked chain).2).1 =
      (resolveChain disk uri chain).1 := by
  induction chain with
  | nil => rfl
  | cons r rest ih =>
      have again := @resolve_again disk r asked uri
      -- whoever decided, the first resolver was asked, and the others perhaps
      obtain ⟨rest', eq, same⟩ : ∃ rest', (resolveChain disk asked (r :: rest)).2 =
          (r.resolve disk asked).2 :: rest' ∧
            (resolveChain disk uri rest').1 =
              (resolveChain disk uri rest).1 := by
        simp only [resolveChain]
        generalize r.resolve disk asked = answered
        rcases answered with ⟨e | _ | u, r'⟩
        · exact ⟨rest, rfl, rfl⟩
        · exact ⟨_, rfl, ih⟩
        · exact ⟨rest, rfl, rfl⟩
      rw [eq]
      simp only [resolveChain]
      generalize (r.resolve disk asked).2.resolve disk uri = left at again
      generalize r.resolve disk uri = right at again
      obtain ⟨a, r'⟩ := left
      obtain ⟨b, r''⟩ := right
      obtain rfl : a = b := again
      rcases a with e | _ | u
      · rfl
      · exact same
      · rfl

end Resolver

end ContractHost
