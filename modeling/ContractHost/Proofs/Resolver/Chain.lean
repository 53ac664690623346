import ContractHost.Proofs.Checksum
import ContractHost.Proofs.Resolver
import ContractHost.Vm.Invoke
import Mathlib.Control.Monad.Basic

/-!
How the answer of a chain of resolvers is made up (`Resolver.chains_compose`).

A resolver serves a locator if it answers with anything but that it has no unit, be it
a unit or a failure. The first resolver of a chain that serves the locator decides
(`chainAnswer_of_served`), those before it make no difference (`chainAnswer_append`),
and those behind it are not asked. Since a resolver serves locators of one authority
only, resolvers of different authorities never stand in each other's way.
-/

namespace ContractHost

/-- The loader fails for reasons of its own: that no resolver serves a locator is not for it to
say. -/
def Loader.NeverUnresolved (loader : Loader) : Prop :=
  ∀ c code uri, loader c code ≠ .error (.unresolved uri)

/-- The loader of the resolver, if it has one, never says so. -/
def Resolver.Candid : Resolver → Prop
  | .named _ _ => True
  | .stored _ loader _ _ => loader.NeverUnresolved

theorem Loader.neverUnresolved_ofRegistry (units : Table Checksum Invocable) :
    (ofRegistry units).NeverUnresolved := by
  intro c code uri
  rw [ofRegistry]
  cases units.get? c <;> simp

namespace Resolver

/-- The authority of the locators that a resolver may serve. -/
def authority : Resolver → String
  | .named authority _ => authority
  | .stored _ _ _ _ => Uri.storeAuthority

section Answers

variable (disk : Disk) (uri : Uri)

def answer (r : Resolver) : Except InvokeError (Option Invocable) :=
  (r.resolve disk uri).1

def chainAnswer (chain : List Resolver) : Except InvokeError Invocable :=
  (resolveChain disk uri chain).1

/-- The resolver serves the locator, with a unit or with a failure. -/
def ServesLocator (r : Resolver) : Prop := r.answer disk uri ≠ .ok none

def Unserved (chain : List Resolver) : Prop :=
  ∀ r ∈ chain, ¬ r.ServesLocator disk uri

end Answers

variable {disk : Disk} {uri : Uri} {r s : Resolver} {pre post chain : List Resolver}

theorem servesLocator_named_iff {authority : String} {units : Table String Invocable} :
    (named authority units).ServesLocator disk uri ↔
      uri.authority = authority ∧ ∃ u, units.get? uri.path = some u := by
  rw [ServesLocator, answer, resolve]
  by_cases own : uri.authority = authority
  · cases units.get? uri.path <;> simp [own]
  · simp [own]

theorem servesLocator_stored_iff {store : CodeStore} {loader : Loader}
    {loaded : Table Checksum Invocable} {loads : Nat} :
    (stored store loader loaded loads).ServesLocator disk uri ↔
      uri.authority = Uri.storeAuthority := by
  rw [ServesLocator, answer, resolve_fst]
  split
  · next other => exact iff_of_false (fun serves => serves rfl) other
  · next own =>
    refine iff_of_true ?_ (Decidable.of_not_not own)
    cases Checksum.parse uri.path with
    | error e => simp
    | ok c =>
        dsimp only
        cases serve store loader disk loaded c <;> simp [Except.map]

theorem answer_of_names {store : CodeStore} {loader : Loader} {loaded : Table Checksum Invocable}
    {c : Checksum} (names : uri.Names c) (loads : Nat) :
    (stored store loader loaded loads).answer disk uri =
      (serve store loader disk loaded c).map some := by
  simp [answer, resolve_fst, names.authority, names.path]

theorem authority_of_serves (serves : r.ServesLocator disk uri) :
    uri.authority = r.authority := by
  cases r with
  | named authority units => exact (servesLocator_named_iff.1 serves).1
  | stored store loader loaded loads => exact servesLocator_stored_iff.1 serves

/-- That a locator is unresolved is no answer of a resolver, unless it is a loader that says so. -/
theorem answer_unresolved {v : Uri}
    (said : r.answer disk uri = .error (.unresolved v)) :
    ∃ store loader loaded loads c code, r = .stored store loader loaded loads ∧ uri.Names c ∧
      loaded.get? c = none ∧ readCode store disk c = .ok code ∧
      loader c code = .error (.unresolved v) := by
  cases r with
  | named authority units => cases said
  | stored store loader loaded loads =>
      have a := answers store loader disk uri loaded loads
      rw [answer] at said
      rw [said] at a
      generalize (resolve disk uri (.stored store loader loaded loads)).2 = left at a
      cases a with
      | refused names fresh read unfit =>
          exact ⟨store, loader, loaded, loads, _, _, rfl, names, fresh, read, unfit⟩

theorem chainAnswer_nil : chainAnswer disk uri [] = .error (.unresolved uri) := rfl

theorem map_chainAnswer_cons (serves : r.ServesLocator disk uri)
    (post : List Resolver) :
    (chainAnswer disk uri (r :: post)).map some = r.answer disk uri := by
  rw [ServesLocator, answer] at serves
  rw [chainAnswer, resolveChain, answer]
  generalize r.resolve disk uri = asked at serves ⊢
  rcases asked with ⟨e | _ | u, left⟩
  · rfl
  · exact absurd rfl serves
  · rfl

theorem chainAnswer_cons_of_serves (serves : r.ServesLocator disk uri)
    (post other : List Resolver) :
    chainAnswer disk uri (r :: post) =
      chainAnswer disk uri (r :: other) := by
  have same := (map_chainAnswer_cons serves post).trans (map_chainAnswer_cons serves other).symm
  generalize chainAnswer disk uri (r :: post) = a at same ⊢
  generalize chainAnswer disk uri (r :: other) = b at same ⊢
  cases a <;> cases b <;> cases same <;> rfl

theorem chainAnswer_cons_of_not_serves (not : ¬ r.ServesLocator disk uri) :
    chainAnswer disk uri (r :: post) = chainAnswer disk uri post := by
  have none : r.answer disk uri = .ok none := Classical.not_not.1 not
  rw [answer] at none
  rw [chainAnswer, resolveChain, chainAnswer]
  generalize r.resolve disk uri = asked at none ⊢
  obtain ⟨a, left⟩ := asked
  obtain rfl : a = .ok Option.none := none
  rfl

/-- Resolvers in front make no difference to what can be told apart behind them. -/
theorem chainAnswer_append_congr {post other : List Resolver}
    (same : chainAnswer disk uri post = chainAnswer disk uri other)
    (pre : List Resolver) : chainAnswer disk uri (pre ++ post) =
      chainAnswer disk uri (pre ++ other) := by
  induction pre with
  | nil => exact same
  | cons r pre ih =>
      by_cases serves : r.ServesLocator disk uri
      · exact chainAnswer_cons_of_serves serves _ _
      · rw [List.cons_append, List.cons_append, chainAnswer_cons_of_not_serves serves,
          chainAnswer_cons_of_not_serves serves, ih]

theorem chainAnswer_append (unserved : Unserved disk uri pre) :
    chainAnswer disk uri (pre ++ post) = chainAnswer disk uri post := by
  induction pre with
  | nil => rfl
  | cons r pre ih =>
      obtain ⟨first, others⟩ := List.forall_mem_cons.1 unserved
      rw [List.cons_append, chainAnswer_cons_of_not_serves first, ih others]

theorem chainAnswer_of_unserved (unserved : Unserved disk uri chain) :
    chainAnswer disk uri chain = .error (.unresolved uri) := by
  rw [← List.append_nil chain, chainAnswer_append unserved, chainAnswer_nil]

theorem unserved_or_first (disk : Disk) (uri : Uri)
    (chain : List Resolver) : Unserved disk uri chain ∨
      ∃ pre r post, chain = pre ++ r :: post ∧ Unserved disk uri pre ∧
        r.ServesLocator disk uri := by
  induction chain with
  | nil => exact .inl (List.forall_mem_nil _)
  | cons r rest ih =>
      by_cases serves : r.ServesLocator disk uri
      · exact .inr ⟨[], r, rest, rfl, List.forall_mem_nil _, serves⟩
      · rcases ih with unserved | ⟨pre, s, post, rfl, unserved, first⟩
        · exact .inl (List.forall_mem_cons.2 ⟨serves, unserved⟩)
        · exact .inr ⟨r :: pre, s, post, rfl, List.forall_mem_cons.2 ⟨serves, unserved⟩, first⟩

theorem chainAnswer_of_served (unserved : Unserved disk uri pre)
    (serves : r.ServesLocator disk uri) (post : List Resolver) :
    (chainAnswer disk uri (pre ++ r :: post)).map some =
      r.answer disk uri := by
  rw [chainAnswer_append unserved, map_chainAnswer_cons serves]

/-- A chain says that a locator is unresolved if no resolver serves it, or if the loader of the
first that does has said so. -/
theorem chainAnswer_unresolved_iff {v : Uri} :
    chainAnswer disk uri chain = .error (.unresolved v) ↔
      (v = uri ∧ Unserved disk uri chain) ∨
      ∃ pre r post, chain = pre ++ r :: post ∧ Unserved disk uri pre ∧
        r.answer disk uri = .error (.unresolved v) := by
  constructor
  · intro said
    rcases unserved_or_first disk uri chain with unserved | ⟨pre, r, post, rfl, rest⟩
    · rw [chainAnswer_of_unserved unserved] at said
      cases said
      exact .inl ⟨rfl, unserved⟩
    · obtain ⟨unserved, serves⟩ := rest
      have decided := chainAnswer_of_served unserved serves post
      rw [said] at decided
      exact .inr ⟨pre, r, post, rfl, unserved, decided.symm⟩
  · rintro (⟨rfl, unserved⟩ | ⟨pre, r, post, rfl, unserved, said⟩)
    · exact chainAnswer_of_unserved unserved
    · have serves : r.ServesLocator disk uri := by
        rw [ServesLocator, said]
        nofun
      have decided := chainAnswer_of_served unserved serves post
      rw [said] at decided
      generalize chainAnswer disk uri (pre ++ r :: post) = a at decided ⊢
      cases a <;> cases decided
      rfl

theorem chainAnswer_swap (apart : r.authority ≠ s.authority) :
    chainAnswer disk uri (r :: s :: post) =
      chainAnswer disk uri (s :: r :: post) := by
  by_cases first : r.ServesLocator disk uri
  · have second : ¬ s.ServesLocator disk uri := fun also =>
      apart ((authority_of_serves first).symm.trans (authority_of_serves also))
    rw [chainAnswer_cons_of_not_serves second]
    exact chainAnswer_cons_of_serves first _ _
  · rw [chainAnswer_cons_of_not_serves first]
    exact chainAnswer_append_congr (chainAnswer_cons_of_not_serves first).symm [s]

/-- How resolvers make up the answers of a chain on a disk, whatever they have kept, and whatever
stores and loaders they have. -/
structure Compose (disk : Disk) : Prop where
  /-- A named resolver serves exactly the locators of its authority under whose path it has a
  unit. -/
  named_serves_iff (uri : Uri) (authority : String) (units : Table String Invocable) :
    (named authority units).ServesLocator disk uri ↔
      uri.authority = authority ∧ ∃ u, units.get? uri.path = some u
  /-- A resolver for stored code serves every locator of stored code, also if it has none. -/
  stored_serves_iff (uri : Uri) (store : CodeStore) (loader : Loader)
    (loaded : Table Checksum Invocable) (loads : Nat) :
    (stored store loader loaded loads).ServesLocator disk uri ↔
      uri.authority = Uri.storeAuthority
  /-- A locator that no resolver serves is unresolved. -/
  unserved {uri : Uri} {chain : List Resolver} (unserved : Unserved disk uri chain) :
    chainAnswer disk uri chain = .error (.unresolved uri)
  /-- The first resolver that serves a locator decides, be it with a failure, and no resolver behind
  it makes a difference. -/
  decided {uri : Uri} {pre : List Resolver} {r : Resolver} (unserved : Unserved disk uri pre)
    (serves : r.ServesLocator disk uri) (post : List Resolver) :
    (chainAnswer disk uri (pre ++ r :: post)).map some = r.answer disk uri ∧
      chainAnswer disk uri (pre ++ r :: post) = chainAnswer disk uri (pre ++ [r])
  /-- So a chain says that a locator is unresolved exactly if no resolver serves it, unless a loader
  that was asked has put its own failure that way. -/
  unresolved_iff (uri v : Uri) (chain : List Resolver) :
    chainAnswer disk uri chain = .error (.unresolved v) ↔
      (v = uri ∧ Unserved disk uri chain) ∨
      ∃ pre store loader loaded loads post c code,
        chain = pre ++ .stored store loader loaded loads :: post ∧
        Unserved disk uri pre ∧ uri.Names c ∧ loaded.get? c = none ∧
        readCode store disk c = .ok code ∧ loader c code = .error (.unresolved v)
  unresolved_iff_unserved {chain : List Resolver} (candid : ∀ r ∈ chain, r.Candid) (uri : Uri) :
    (∃ v, chainAnswer disk uri chain = .error (.unresolved v)) ↔ Unserved disk uri chain
  /-- More resolvers behind a chain change no answer but that a locator is unresolved. -/
  appended {uri : Uri} {chain : List Resolver}
    (resolved : ∀ v, chainAnswer disk uri chain ≠ .error (.unresolved v)) (more : List Resolver) :
    chainAnswer disk uri (chain ++ more) = chainAnswer disk uri chain
  /-- Neighbours of different authorities may change places. -/
  exchanged {r s : Resolver} (apart : r.authority ≠ s.authority) (uri : Uri)
    (pre post : List Resolver) :
    chainAnswer disk uri (pre ++ r :: s :: post) = chainAnswer disk uri (pre ++ s :: r :: post)
  /-- A named resolver that has no unit under the path of a locator may be left out. -/
  left_out {uri : Uri} {units : Table String Invocable} (lacks : units.get? uri.path = none)
    (authority : String) (pre post : List Resolver) :
    chainAnswer disk uri (pre ++ named authority units :: post) =
      chainAnswer disk uri (pre ++ post)

/-- Chains of resolvers are put together predictably on any disk. That a locator is unresolved is
said of those that no resolver serves, and of no others, if no loader in the chain says it of its
own accord. -/
theorem chains_compose (disk : Disk) : Compose disk where
  named_serves_iff _ _ _ := servesLocator_named_iff
  stored_serves_iff _ _ _ _ _ := servesLocator_stored_iff
  unserved := chainAnswer_of_unserved
  decided unserved serves post := by
    refine ⟨chainAnswer_of_served unserved serves _, ?_⟩
    exact chainAnswer_append_congr (chainAnswer_cons_of_serves serves _ _) _
  unresolved_iff uri v chain := by
    rw [chainAnswer_unresolved_iff]
    refine or_congr_right ⟨?_, ?_⟩
    · rintro ⟨pre, r, post, rfl, unserved, said⟩
      obtain ⟨store, loader, loaded, loads, c, code, rfl, reached⟩ := answer_unresolved said
      exact ⟨pre, store, loader, loaded, loads, post, c, code, rfl, unserved, reached⟩
    · rintro ⟨pre, store, loader, loaded, loads, post, c, code, rfl, unserved, names, fresh, read,
        unfit⟩
      refine ⟨pre, _, post, rfl, unserved, (answer_of_names names loads).trans ?_⟩
      simp [serve, fresh, read, unfit, Except.map]
  unresolved_iff_unserved {chain} candid uri := by
    constructor
    · rintro ⟨v, said⟩
      rcases chainAnswer_unresolved_iff.1 said with ⟨-, unserved⟩ | ⟨pre, r, post, rfl, _, said⟩
      · exact unserved
      · obtain ⟨_, _, _, _, c, code, rfl, _, _, _, unfit⟩ := answer_unresolved said
        exact absurd unfit (candid _ (List.mem_append_right _ List.mem_cons_self) c code v)
    · exact fun unserved => ⟨uri, chainAnswer_of_unserved unserved⟩
  appended {uri chain} resolved more := by
    rcases unserved_or_first disk uri chain with unserved | ⟨pre, r, post, rfl, unserved, serves⟩
    · exact absurd (chainAnswer_of_unserved unserved) (resolved uri)
    · rw [List.append_assoc]
      exact chainAnswer_append_congr (chainAnswer_cons_of_serves serves _ _) pre
  exchanged apart _ pre _ := chainAnswer_append_congr (chainAnswer_swap apart) pre
  left_out {uri units} lacks authority pre post := by
    refine chainAnswer_append_congr (chainAnswer_cons_of_not_serves fun serves => ?_) pre
    obtain ⟨-, u, found⟩ := servesLocator_named_iff.1 serves
    cases lacks.symm.trans found

end Resolver

namespace Sample

def attic : CodeStore := .within "attic"

def cellar : CodeStore := .within "cellar"

def loft : Disk := (attic.create (m := StateM Disk) [1] (.blank [0x68])).2

def stowed : Uri := .store (.of [1])

def handy : Loader := fun _ _ => .ok .bridge

/-- A loader that puts its failure as if no resolver served the code. -/
def evasive : Loader := fun _ _ => .error (.unresolved stowed)

theorem stowed_names : stowed.Names (.of [1]) := ⟨rfl, Checksum.parse_toHex _⟩

theorem readCode_attic : Resolver.readCode attic loft (.of [1]) = .ok [1] := by
  decide +kernel

theorem readCode_cellar :
    Resolver.readCode cellar loft (.of [1]) = .error (.notFound (.of [1])) := by
  decide +kernel

end Sample

namespace Resolver

/-- Of two stores the first one decides, also if it has not got the code; a registry without the
unit refuses, and says no more. A unit that no resolver has is unresolved, whichever way round the
resolvers stand, unless one behind them has it. -/
theorem chains_compose_mixed :
    (chainAnswer Sample.loft Sample.stowed
        [fresh Sample.cellar Sample.handy, fresh Sample.attic Sample.handy]).map some =
        .error (.store (.notFound (.of [1]))) ∧
      (chainAnswer Sample.loft Sample.stowed
        [fresh Sample.attic Sample.handy, fresh Sample.cellar Sample.handy]).map some =
        .ok (some .bridge) ∧
      (∀ v, chainAnswer Sample.loft Sample.stowed [fresh Sample.attic (.ofRegistry ∅)] ≠
        .error (.unresolved v)) ∧
      (∃ v, chainAnswer Sample.loft (.host "clock")
        (Vm.standardResolvers Sample.attic Sample.handy).reverse = .error (.unresolved v)) ∧
      (chainAnswer Sample.loft (.host "clock") (Vm.standardResolvers Sample.attic Sample.handy ++
        [.named "host" (Table.ofList [("clock", .bridge)])])).map some = .ok (some .bridge) := by
  have compose := chains_compose Sample.loft
  have serves (store : CodeStore) (loader : Loader) : (fresh store loader).ServesLocator
      Sample.loft Sample.stowed := (compose.stored_serves_iff _ _ _ _ _).2 rfl
  have unserved : Unserved Sample.loft (.host "clock")
      (Vm.standardResolvers Sample.attic Sample.handy) := by
    refine List.forall_mem_cons.2 ⟨fun serves => ?_, List.forall_mem_singleton.2 fun serves => ?_⟩
    · obtain ⟨-, u, found⟩ := (compose.named_serves_iff _ _ _).1 serves
      cases found
    · exact absurd ((compose.stored_serves_iff _ _ _ _ _).1 serves) (by decide)
  refine ⟨?_, ?_, fun v said => ?_, ?_, ?_⟩
  · refine (compose.decided (List.forall_mem_nil _) (serves _ _) _).1.trans
      ((answer_of_names Sample.stowed_names 0).trans ?_)
    simp [serve, Sample.readCode_cellar, Except.map]
  · refine (compose.decided (List.forall_mem_nil _) (serves _ _) _).1.trans
      ((answer_of_names Sample.stowed_names 0).trans ?_)
    simp [serve, Sample.readCode_attic, Sample.handy, Except.map]
  · have candid : ∀ r ∈ [fresh Sample.attic (.ofRegistry ∅)], r.Candid :=
      List.forall_mem_singleton.2 (Loader.neverUnresolved_ofRegistry ∅)
    have unserved := (compose.unresolved_iff_unserved candid _).1 ⟨v, said⟩
    exact unserved _ List.mem_cons_self (serves _ _)
  · have apart : (named Uri.hostAuthority (Table.ofList [(Bridge.unitName, .bridge)])).authority ≠
        (fresh Sample.attic Sample.handy).authority := by
      decide
    have missed := compose.unserved unserved
    exact ⟨_, (compose.exchanged apart (.host "clock") [] []).symm.trans missed⟩
  · refine (compose.decided unserved ?_ []).1.trans rfl
    exact (compose.named_serves_iff _ _ _).2 ⟨rfl, _, rfl⟩

/-- That a locator is unresolved is said of one that is served, if the loader says so. -/
theorem unresolved_though_served :
    chainAnswer Sample.loft Sample.stowed [fresh Sample.attic Sample.evasive] =
        .error (.unresolved Sample.stowed) ∧
      ¬ Unserved Sample.loft Sample.stowed [fresh Sample.attic Sample.evasive] := by
  have serves : (fresh Sample.attic Sample.evasive).ServesLocator Sample.loft Sample.stowed :=
    servesLocator_stored_iff.2 rfl
  refine ⟨chainAnswer_unresolved_iff.2 (.inr ⟨[], _, [], rfl, List.forall_mem_nil _, ?_⟩),
    fun unserved => unserved _ List.mem_cons_self serves⟩
  refine (answer_of_names Sample.stowed_names 0).trans ?_
  simp [serve, Sample.readCode_attic, Sample.evasive, Except.map]

end Resolver

end ContractHost
