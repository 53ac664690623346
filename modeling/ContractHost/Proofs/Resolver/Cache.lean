import ContractHost.Proofs.Checksum
import ContractHost.Proofs.Vm.Residue

/-!
The units that a resolver keeps are a cache that cannot be seen (`Site.cache_transparent`).

A history stores codes and looks up units, in any order. Whatever it is, every kept unit stays what
its loader makes of the code on the disk (`Site.Sound`), so every lookup is answered as if nothing
were kept. What shows that units are kept at all is how often the loader is asked: for a checksum of
which it made a unit, never again.
-/

namespace ContractHost

namespace Resolver

/-- What is answered for stored code if nothing is kept. -/
def uncached (store : CodeStore) (loader : Loader) (disk : Disk) (uri : Uri) :
    Except InvokeError (Option Invocable) :=
  if uri.authority ≠ Uri.storeAuthority then .ok none
  else
    match Checksum.parse uri.path with
    | .error e => .error (.resolution (uri.text ++ ": " ++ (StoreError.ofChecksum e).message))
    | .ok c =>
      match readCode store disk c with
      | .error e => .error (.store e)
      | .ok code => (loader c code).map some

def kept : Resolver → Table Checksum Invocable
  | .named _ _ => ∅
  | .stored _ _ loaded _ => loaded

/-- The resolver serves the codes of a store with a loader. -/
def Serves (store : CodeStore) (loader : Loader) (r : Resolver) : Prop :=
  ∃ loaded loads, r = .stored store loader loaded loads

variable {store : CodeStore} {loader : Loader} {disk : Disk} {uri : Uri} {c : Checksum}

theorem uncached_of_read (loader : Loader) (names : uri.Names c) {code : Bytes}
    (read : readCode store disk c = .ok code) :
    uncached store loader disk uri = (loader c code).map some := by
  simp [uncached, names.authority, names.path, read]

theorem fresh_eq_uncached (store : CodeStore) (loader : Loader) (disk : Disk) (uri : Uri) :
    ((fresh store loader).resolve disk uri).1 = uncached store loader disk uri := by
  rw [fresh, resolve_fst, uncached]
  simp only [serve, Table.get?_empty]
  split
  · rfl
  · cases Checksum.parse uri.path with
    | error e => rfl
    | ok c =>
        dsimp only
        cases readCode store disk c <;> rfl

/-- A resolver whose units are what it would load answers as if it had kept none. -/
theorem eq_uncached {r : Resolver} (serves : r.Serves store loader) (faithful : r.Faithful disk)
    (uri : Uri) : (r.resolve disk uri).1 = uncached store loader disk uri := by
  obtain ⟨loaded, loads, rfl⟩ := serves
  rw [← resolve_cold faithful uri]
  exact fresh_eq_uncached store loader disk uri

theorem resolve_of_names {r : Resolver} (serves : r.Serves store loader) (disk : Disk)
    {other : Uri} (names : uri.Names c) (others : other.Names c) :
    r.resolve disk other = r.resolve disk uri := by
  obtain ⟨loaded, loads, rfl⟩ := serves
  simp only [resolve, names.authority, names.path, others.authority, others.path]

/-- What becomes of a resolver for stored code that is asked: its units stay, and another one only
comes to them with an answer. The loader is not asked for a checksum whose unit was kept, and a unit
that it was asked for is kept. -/
structure Keeps (r : Resolver) (uri : Uri) (answer : Except InvokeError (Option Invocable))
    (left : Resolver) : Prop where
  stays {c : Checksum} {u : Invocable} (held : r.kept.get? c = some u) : left.kept.get? c = some u
  failed {e : InvokeError} (error : answer = .error e) : left.kept = r.kept
  unasked {c : Checksum} {u : Invocable} (names : uri.Names c) (held : r.kept.get? c = some u) :
    left.loads = r.loads
  asked {c : Checksum} {u : Option Invocable} (names : uri.Names c)
    (loads : left.loads ≠ r.loads) (ok : answer = .ok u) : ∃ v, left.kept.get? c = some v

theorem keeps {r : Resolver} (serves : r.Serves store loader) (disk : Disk) (uri : Uri) :
    (r.resolve disk uri).2.Serves store loader ∧
      r.Keeps uri (r.resolve disk uri).1 (r.resolve disk uri).2 := by
  obtain ⟨loaded, loads, rfl⟩ := serves
  have answers := answers store loader disk uri loaded loads
  generalize resolve disk uri (.stored store loader loaded loads) = answered at answers ⊢
  obtain ⟨x, left⟩ := answered
  have own {c d : Checksum} (names : uri.Names c) (others : uri.Names d) : c = d :=
    Except.ok.inj (names.path.symm.trans others.path)
  cases answers with
  | foreign | malformed | kept | missing =>
      exact ⟨⟨_, _, rfl⟩, id, fun _ => rfl, fun _ _ => rfl, fun _ more _ => absurd rfl more⟩
  | refused names fresh read unfit =>
      refine ⟨⟨_, _, rfl⟩, id, fun _ => rfl, fun others held => ?_, fun _ _ => nofun⟩
      obtain rfl := own names others
      cases fresh.symm.trans held
  | @made c _ u names fresh read unit =>
      refine ⟨⟨_, _, rfl⟩, fun {d v} held => ?_, nofun, fun others held => ?_,
        fun others _ _ => ?_⟩
      · have ne : d ≠ c := by
          rintro rfl
          cases fresh.symm.trans held
        exact (Table.get?_insert_of_ne _ _ ne).trans held
      · obtain rfl := own names others
        cases fresh.symm.trans held
      · obtain rfl := own names others
        exact ⟨u, Table.get?_insert_self _ _ _⟩

end Resolver

/-- A disk with a store on it, and the resolver that serves the codes of the store. -/
structure Site where
  disk : Disk
  resolver : Resolver

inductive StoreEvent where
  | create (code : Bytes)
  | resolve (uri : Uri)

def StoreEvent.code? : StoreEvent → Option Bytes
  | .create code => some code
  | .resolve _ => none

/-- A locator was looked up: the site that was found, the answer, and what became of the
resolver. -/
structure Lookup where
  uri : Uri
  found : Site
  answer : Except InvokeError (Option Invocable)
  left : Resolver

structure Lookup.Asks (l : Lookup) (c : Checksum) : Prop where
  names : l.uri.Names c
  asked : l.left.loads ≠ l.found.resolver.loads

namespace Site

def look (site : Site) (uri : Uri) : Lookup where
  uri := uri
  found := site
  answer := (site.resolver.resolve site.disk uri).1
  left := (site.resolver.resolve site.disk uri).2

def after (store : CodeStore) (site : Site) : StoreEvent → Site
  | .create code => { site with disk := (store.create (m := StateM Disk) code site.disk).2 }
  | .resolve uri => { site with resolver := (site.look uri).left }

def run (store : CodeStore) (site : Site) (events : List StoreEvent) : Site :=
  events.foldl (after store) site

def lookups (store : CodeStore) (site : Site) : List StoreEvent → List Lookup
  | [] => []
  | .create code :: rest => (site.after store (.create code)).lookups store rest
  | .resolve uri :: rest => site.look uri :: (site.after store (.resolve uri)).lookups store rest

variable {store : CodeStore} {loader : Loader} {site : Site} {events : List StoreEvent} {first : Disk}
  {codes : List Bytes} {c : Checksum}

section Invariants

variable {J : Site → Prop}

theorem run_keeps (kept : ∀ e ∈ events, ∀ site, J site → J (site.after store e))
    (start : J site) : J (site.run store events) := by
  induction events generalizing site with
  | nil => exact start
  | cons e rest ih =>
      exact ih (fun e mem => kept e (List.mem_cons_of_mem _ mem)) (kept e List.mem_cons_self _ start)

theorem lookups_keep (kept : ∀ e ∈ events, ∀ site, J site → J (site.after store e))
    (start : J site) {l : Lookup} (mem : l ∈ site.lookups store events) :
    J l.found ∧ l = l.found.look l.uri := by
  induction events generalizing site with
  | nil => exact absurd mem List.not_mem_nil
  | cons e rest ih =>
      have later := ih (fun e mem => kept e (List.mem_cons_of_mem _ mem))
        (kept e List.mem_cons_self _ start)
      cases e with
      | create code => exact later mem
      | resolve uri =>
          rcases List.mem_cons.1 mem with rfl | mem
          · exact ⟨start, rfl⟩
          · exact later mem

end Invariants

/-- The store is tidy, and the resolver keeps what it would load. -/
structure Sound (store : CodeStore) (loader : Loader) (first : Disk) (codes : List Bytes)
    (site : Site) : Prop where
  tidy : store.Tidy first codes site.disk
  serves : site.resolver.Serves store loader
  faithful : site.resolver.Faithful site.disk

namespace Sound

theorem after (s : site.Sound store loader first codes) {e : StoreEvent}
    (known : ∀ code ∈ e.code?, code ∈ codes) (apart : CodeStore.Apart codes) :
    (site.after store e).Sound store loader first codes := by
  cases e with
  | create code =>
      have mem := known code rfl
      refine ⟨s.tidy.create mem apart, s.serves, s.faithful.mono fun other known _ _ => ?_⟩
      obtain ⟨loaded, loads, eq⟩ := s.serves
      rw [eq] at known
      cases known
      exact s.tidy.readCode_create mem apart
  | resolve uri =>
      exact ⟨s.tidy, (Resolver.keeps s.serves site.disk uri).1,
        (Resolver.resolve_snd s.faithful uri).2⟩

theorem after_mem (known : ∀ code ∈ events.filterMap StoreEvent.code?, code ∈ codes)
    (apart : CodeStore.Apart codes) {e : StoreEvent} (mem : e ∈ events)
    (s : site.Sound store loader first codes) :
    (site.after store e).Sound store loader first codes :=
  s.after (fun code stored => known code (List.mem_filterMap.2 ⟨e, mem, stored⟩)) apart

theorem initial {dataDir : String} {before disk : Disk}
    (opened : CodeStore.openIn (m := StateM Disk) dataDir before = (.ok store, disk))
    (empty : ∀ c, disk.node? (disk.placeOf (store.codePath c)) = none) (loader : Loader)
    (codes : List Bytes) : Sound store loader disk codes ⟨disk, .fresh store loader⟩ where
  tidy := CodeStore.tidy_openIn opened empty codes
  serves := ⟨_, _, rfl⟩
  faithful _ _ kept := nomatch kept

end Sound

theorem unasked_later (s : site.Sound store loader first codes)
    (known : ∀ code ∈ events.filterMap StoreEvent.code?, code ∈ codes)
    (apart : CodeStore.Apart codes) {u : Invocable} (held : site.resolver.kept.get? c = some u)
    {l : Lookup} (mem : l ∈ site.lookups store events) : ¬ l.Asks c := by
  have kept (e : StoreEvent) (mem : e ∈ events) (site : Site)
      (kept : site.Sound store loader first codes ∧ site.resolver.kept.get? c = some u) :
      (site.after store e).Sound store loader first codes ∧
        (site.after store e).resolver.kept.get? c = some u := by
    obtain ⟨sound, held⟩ := kept
    refine ⟨sound.after_mem known apart mem, ?_⟩
    cases e with
    | create code => exact held
    | resolve uri => exact (Resolver.keeps sound.serves site.disk uri).2.stays held
  obtain ⟨⟨sound, held⟩, eq⟩ := lookups_keep kept ⟨s, held⟩ mem
  intro asks
  have unasked := (Resolver.keeps sound.serves l.found.disk l.uri).2.unasked asks.names
    held
  rw [eq] at asks
  exact asks.asked unasked

theorem asked_once (s : site.Sound store loader first codes)
    (known : ∀ code ∈ events.filterMap StoreEvent.code?, code ∈ codes)
    (apart : CodeStore.Apart codes) :
    (site.lookups store events).Pairwise fun l l' =>
      ∀ c u, l.Asks c → l.answer = .ok u → ¬ l'.Asks c := by
  induction events generalizing site with
  | nil => exact List.Pairwise.nil
  | cons e rest ih =>
      have known' : ∀ code ∈ rest.filterMap StoreEvent.code?, code ∈ codes := by
        intro code mem
        rw [List.filterMap_cons] at known
        split at known
        · exact known code mem
        · exact known code (List.mem_cons_of_mem _ mem)
      have next := s.after_mem known apart List.mem_cons_self
      have others := ih next known'
      cases e with
      | create code => exact others
      | resolve uri =>
          refine List.pairwise_cons.2 ⟨fun l' mem c u asks ok => ?_, others⟩
          obtain ⟨v, held⟩ := (Resolver.keeps s.serves site.disk uri).2.asked asks.names
            asks.asked ok
          exact unasked_later next known' apart held mem

/-- Once a code can be read, every later lookup of its checksum gives what the loader makes of it. -/
theorem answer_later (s : site.Sound store loader first codes)
    (known : ∀ code ∈ events.filterMap StoreEvent.code?, code ∈ codes)
    (apart : CodeStore.Apart codes) {code : Bytes}
    (read : Resolver.readCode store site.disk c = .ok code) {l : Lookup}
    (mem : l ∈ site.lookups store events) (names : l.uri.Names c) :
    l.answer = (loader c code).map some := by
  have kept (e : StoreEvent) (mem : e ∈ events) (site : Site)
      (kept : site.Sound store loader first codes ∧
        Resolver.readCode store site.disk c = .ok code) :
      (site.after store e).Sound store loader first codes ∧
        Resolver.readCode store (site.after store e).disk c = .ok code := by
    obtain ⟨sound, read⟩ := kept
    refine ⟨sound.after_mem known apart mem, ?_⟩
    cases e with
    | create other =>
        have among := known other (List.mem_filterMap.2 ⟨_, mem, rfl⟩)
        exact sound.tidy.readCode_create among apart read
    | resolve uri => exact read
  obtain ⟨⟨sound, read⟩, eq⟩ := lookups_keep kept ⟨s, read⟩ mem
  rw [eq, ← Resolver.uncached_of_read loader names read]
  exact Resolver.eq_uncached sound.serves sound.faithful l.uri

theorem answer_created {earlier later : List StoreEvent} {code : Bytes} {d : Disk}
    (s : site.Sound store loader first codes)
    (known : ∀ x ∈ (earlier ++ .create code :: later).filterMap StoreEvent.code?, x ∈ codes)
    (apart : CodeStore.Apart codes)
    (created : store.create (m := StateM Disk) code (site.run store earlier).disk =
      (.ok c, d)) {l : Lookup}
    (mem : l ∈ ((site.run store earlier).after store (.create code)).lookups store
      later) (names : l.uri.Names c) : l.answer = (loader c code).map some := by
  have kept {e : StoreEvent} (mem : e ∈ earlier ++ .create code :: later) (site : Site)
      (sound : site.Sound store loader first codes) := sound.after_mem known apart mem
  have reached := run_keeps (fun e mem => kept (List.mem_append_left _ mem)) s
  have stored := kept (List.mem_append_right _ List.mem_cons_self) _ reached
  obtain ⟨rfl, stands⟩ := CodeStore.stored_of_create created
  have read : Resolver.readCode store
      ((site.run store earlier).after store (.create code)).disk (.of code) =
        .ok code := by
    show Resolver.readCode store (store.create (m := StateM Disk) code _).2 _ = _
    rw [created]
    exact CodeStore.readCode_of_stands stands.bytecode
  refine answer_later stored (fun x mem => known x ?_) apart read mem names
  rw [List.filterMap_append]
  exact List.mem_append_right _ (List.mem_cons_of_mem _ mem)

/-- What a resolver keeps cannot be seen. Let a store be opened where no codes are, and let codes
whose checksums are their own be stored and locators be looked up in any order. Every lookup is
answered as it would be at that moment if nothing were kept. The answer to a locator of stored code,
and what is kept then, depend on the checksum that its path names, and a path names a checksum in
every spelling. Once the loader was asked for a checksum and made a unit it is not asked for it
again, and when a lookup fails nothing is kept. So once a code was stored, each later lookup of its
checksum gives what the loader makes of it. -/
theorem cache_transparent (store : CodeStore) (loader : Loader) (dataDir : String)
    (before disk : Disk)
    (opened : CodeStore.openIn (m := StateM Disk) dataDir before = (.ok store, disk))
    (empty : ∀ c, disk.node? (disk.placeOf (store.codePath c)) = none) (events : List StoreEvent)
    (apart : CodeStore.Apart (events.filterMap StoreEvent.code?)) :
    let site : Site := ⟨disk, .fresh store loader⟩
    let lookups := site.lookups store events
    (∀ l ∈ lookups, l.answer = Resolver.uncached store loader l.found.disk l.uri) ∧
      (∀ l ∈ lookups, ∀ c other, l.uri.Names c → other.Names c →
        (l.found.look other).answer = l.answer ∧
          (l.found.look other).left = l.left) ∧
      (∀ (c : Checksum) (text : String), c.SpelledBy text →
        Uri.Names ⟨Uri.storeAuthority, text⟩ c) ∧
      lookups.Pairwise (fun l l' => ∀ c u, l.Asks c → l.answer = .ok u → ¬ l'.Asks c) ∧
      (∀ l ∈ lookups, ∀ e, l.answer = .error e → l.left.kept = l.found.resolver.kept) ∧
      ∀ earlier code later c d, events = earlier ++ .create code :: later →
        store.create (m := StateM Disk) code (site.run store earlier).disk = (.ok c, d) →
        ∀ l ∈ ((site.run store earlier).after store (.create code)).lookups store
            later, l.uri.Names c → l.answer = (loader c code).map some := by
  intro site lookups
  have start := Sound.initial opened empty loader (events.filterMap StoreEvent.code?)
  have made (l : Lookup) (mem : l ∈ lookups) := lookups_keep
    (fun e mem site (s : site.Sound store loader disk _) =>
      s.after_mem (fun _ => id) apart mem) start mem
  refine ⟨fun l mem => ?_, fun l mem c other names others => ?_, fun c text spelled => ?_,
    asked_once start (fun _ => id) apart, fun l mem e failed => ?_, ?_⟩
  · obtain ⟨sound, eq⟩ := made l mem
    rw [eq]
    exact Resolver.eq_uncached sound.serves sound.faithful l.uri
  · obtain ⟨sound, eq⟩ := made l mem
    have same := Resolver.resolve_of_names sound.serves l.found.disk names others
    rw [eq]
    exact ⟨congrArg Prod.fst same, congrArg Prod.snd same⟩
  · exact ⟨rfl, Checksum.parse_of_spelledBy spelled⟩
  · obtain ⟨sound, eq⟩ := made l mem
    rw [eq] at failed ⊢
    exact (Resolver.keeps sound.serves l.found.disk l.uri).2.failed failed
  · rintro earlier code later c d rfl created l mem names
    exact answer_created start (fun _ => id) apart created mem names

end Site

namespace Sample

def picky : Loader := fun _ code => if code = [1] then .ok .bridge else .error .unbound

def shouted : Uri := ⟨Uri.storeAuthority, " " ++ (Checksum.of [1]).toHex.toUpper ++ "\n"⟩

/-- The code is looked up before it is stored, and in two spellings afterwards. -/
def visits : List StoreEvent :=
  [.resolve (Uri.store (.of [1])), .create [1], .resolve shouted, .resolve (Uri.store (.of [1]))]

end Sample

/-- Both spellings lead to the unit, and the loader is asked once for the two of them. -/
theorem cache_transparent_shouted :
    let site : Site := ⟨Sample.opened, .fresh Sample.counting.store Sample.picky⟩
    let lookups := site.lookups Sample.counting.store Sample.visits
    lookups.map (fun l => l.left.loads) = [0, 1, 1] ∧
      ∀ l ∈ lookups, l.answer =
        Resolver.uncached Sample.counting.store Sample.picky l.found.disk l.uri := by
  intro site lookups
  have opened : CodeStore.openIn (m := StateM Disk) "data" Sample.bare =
      (.ok Sample.counting.store, Sample.opened) := Prod.ext (by decide +kernel) rfl
  have apart : CodeStore.Apart (Sample.visits.filterMap StoreEvent.code?) := by
    have codes : Sample.visits.filterMap StoreEvent.code? = [[1]] := rfl
    simp [CodeStore.Apart, codes]
  refine ⟨by decide +kernel, ?_⟩
  exact (Site.cache_transparent Sample.counting.store Sample.picky "data" Sample.bare
    Sample.opened opened Sample.opened_empty Sample.visits apart).1

end ContractHost
