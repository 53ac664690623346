import ContractHost.Proofs.CodeStore.Entry
import ContractHost.Resolver

/-!
A store that was opened where no codes were, and in which codes were stored since.

Each of its entries is vacant or holds one of those codes (`Tidy`), even if some of
them could not be stored as they should. Nothing can be told from a vacant entry but
what could be told from it on the first disk, so two such stores that hold codes for
the same checksums are read alike (`Tidy.readCode_congr`).
-/

namespace ContractHost

namespace CodeStore

variable {s : CodeStore} {first d d' : Disk} {codes : List Bytes} {code : Bytes} {c : Checksum}

def Apart (codes : List Bytes) : Prop :=
  ∀ x ∈ codes, ∀ y ∈ codes, Checksum.of x = Checksum.of y → x = y

def Open (s : CodeStore) (d : Disk) : Prop := d.Passes (d.start s.root) s.root.components

/-- No code stands in an entry, not even something else in its place. On the way there a directory
may have been made since the first disk, but no file. -/
structure Vacant (s : CodeStore) (first d : Disk) (c : Checksum) : Prop where
  code : d.node? (d.placeOf (s.codePath c)) = none
  entry (b : Bytes) :
    d.node? (s.entryPlace d c) = some (.file b) ↔ first.node? (s.entryPlace d c) = some (.file b)

/-- Every entry is vacant or holds one of the codes. -/
structure Tidy (s : CodeStore) (first : Disk) (codes : List Bytes) (d : Disk) : Prop where
  cwd : d.cwd = first.cwd
  root : s.Open d
  entries (c : Checksum) : s.Vacant first d c ∨
    ∃ code ∈ codes, Checksum.of code = c ∧ d.Stands (s.codeDir c) "wrap.wasm" code

/-- Why no code is found in an entry that is vacant. -/
def absence (s : CodeStore) (first : Disk) (c : Checksum) : OsError :=
  match first.origin (s.codePath c), first.node? (s.entryPlace first c) with
  | .error e, _ => e
  | .ok _, some (.file _) => .notDirectory
  | .ok _, _ => .notFound

section Storing

theorem only_create (opened : s.Open d) (code : Bytes) :
    Disk.Only (s.entryPlace d (.of code)) d (s.create (m := StateM Disk) code d).2 := by
  have directory {e : Except OsError Unit} {d₁ : Disk}
      (made : d.createDirs (s.codeDir (.of code)) = (e, d₁)) :
      Disk.Only (s.entryPlace d (.of code)) d d₁ := by
    rcases Disk.createDirs_child opened (plain_toHex _) made with rfl | ⟨-, rfl⟩
    · exact .refl _ _
    · exact .put (List.prefix_refl _) _
  have bytecode {e : Except OsError Unit} {d₁ d₂ : Disk}
      (o : Disk.Only (s.entryPlace d (.of code)) d d₁)
      (written : d₁.write (s.codePath (.of code)) code = (e, d₂)) :
      Disk.Only (s.entryPlace d (.of code)) d d₂ := by
    refine o.trans (Disk.only_write written ?_)
    rw [← codePath, o.placeOf]
    exact codePlace_below s d _
  have exit := create_exit s code d
  generalize s.create (m := StateM Disk) code d = result at exit
  cases exit with
  | empty _ => exact .refl _ d
  | noDirectory _ made => exact directory made
  | noCode _ made written => exact bytecode (directory made) written
  | noManifest _ made written info | stored _ made written info =>
      have o := bytecode (directory made) written
      refine o.trans (Disk.only_write info ?_)
      rw [← manifestPath, o.placeOf]
      exact manifestPlace_below s d _

/-- In its entry a code stands once it was stored, if nothing stood in the way; otherwise at most
the directory was made. -/
theorem create_entry (opened : s.Open d) (code : Bytes) :
    (s.create (m := StateM Disk) code d).2 = d ∨
      d.node? (s.entryPlace d (.of code)) = none ∧
        (s.create (m := StateM Disk) code d).2 = d.put (s.entryPlace d (.of code)) .dir ∨
      (s.create (m := StateM Disk) code d).2.Stands (s.codeDir (.of code)) "wrap.wasm" code := by
  have directory {e : Except OsError Unit} {d₁ : Disk}
      (made : d.createDirs (s.codeDir (.of code)) = (e, d₁)) :=
    Disk.createDirs_child opened (plain_toHex _) made
  have exit := create_exit s code d
  generalize s.create (m := StateM Disk) code d = result at exit
  cases exit with
  | empty _ => exact .inl rfl
  | noDirectory _ made => exact (directory made).imp_right .inl
  | noCode _ made written =>
      obtain rfl := Disk.write_error written
      exact (directory made).imp_right .inl
  | noManifest _ made written info | stored _ made written info =>
      exact .inr (.inr (stands_of_writes made written info))

theorem Open.create (opened : s.Open d) (code : Bytes) :
    s.Open (s.create (m := StateM Disk) code d).2 := by
  have w := within_create s code d
  rw [Open, w.start]
  exact w.passes opened

theorem entry_outside {a b : Checksum} (ne : a ≠ b) {p : Place} (name : Bytes)
    (eq : p = s.entryPlace d b ++ [name]) : ¬ s.entryPlace d a <+: p :=
  fun below => ne (entryPlace_apart name (eq ▸ below))

theorem stands_create {kept : Bytes} (opened : s.Open d)
    (stands : d.Stands (s.codeDir c) "wrap.wasm" kept)
    (own : Checksum.of code = c → code = kept) :
    (s.create (m := StateM Disk) code d).2.Stands (s.codeDir c) "wrap.wasm" kept := by
  by_cases same : Checksum.of code = c
  · obtain rfl := own same
    subst same
    rcases create_entry opened code with eq | ⟨missing, eq⟩ | there
    · rwa [eq]
    · rw [eq]
      exact stands.put_dir missing
    · exact there
  · exact stands.within (within_create s code d) (entry_outside same _ (codePlace_eq s d c))

theorem Vacant.create (opened : s.Open d) (vacant : s.Vacant first d c) (code : Bytes) :
    s.Vacant first (s.create (m := StateM Disk) code d).2 c ∨ Checksum.of code = c ∧
      (s.create (m := StateM Disk) code d).2.Stands (s.codeDir c) "wrap.wasm" code := by
  have o := only_create opened code
  by_cases same : Checksum.of code = c
  · subst same
    rcases create_entry opened code with eq | ⟨missing, eq⟩ | there
    · rw [eq]
      exact .inl vacant
    · rw [eq]
      have filled : s.entryPlace d (.of code) ≠ [] := by simp [entryPlace_eq]
      have ne : d.placeOf (s.codePath (.of code)) ≠ s.entryPlace d (.of code) := by
        simp [codePlace_eq]
      refine .inl ⟨(Disk.node?_put_of_ne ne).trans vacant.code, fun b => ?_⟩
      -- neither the directory nor what was there before is a file
      refine Iff.trans ?_ (vacant.entry b)
      rw [missing]
      exact iff_of_false (fun file => nomatch (Disk.node?_put_self filled).symm.trans file) nofun
    · exact .inr ⟨rfl, there⟩
  · refine .inl ⟨?_, fun b => ?_⟩
    · rw [o.placeOf, o.nodes (entry_outside same _ (codePlace_eq s d c))]
      exact vacant.code
    · rw [entryPlace, o.placeOf, ← entryPlace, o.nodes]
      · exact vacant.entry b
      · exact fun below => same (entryPlace_apart [] (below.trans (List.prefix_append _ _)))

end Storing

/-- Storing a code leaves the store tidy, whether it succeeds or not. -/
theorem Tidy.create (tidy : s.Tidy first codes d) (mem : code ∈ codes) (apart : Apart codes) :
    s.Tidy first codes (s.create (m := StateM Disk) code d).2 where
  cwd := (only_create tidy.root code).cwd.trans tidy.cwd
  root := tidy.root.create code
  entries c := by
    rcases tidy.entries c with vacant | ⟨kept, known, rfl, stands⟩
    · rcases vacant.create tidy.root code with vacant | ⟨own, stands⟩
      · exact .inl vacant
      · exact .inr ⟨code, mem, own, stands⟩
    · exact .inr ⟨kept, known, rfl, stands_create tidy.root stands (apart code mem kept known)⟩

section Reading

theorem readCode_of_stands (stands : d.Stands (s.codeDir c) "wrap.wasm" code) :
    Resolver.readCode s d c = .ok code :=
  congrArg Prod.fst (getCode_of_stands stands)

theorem contains_of_stands (stands : d.Stands (s.codeDir c) "wrap.wasm" code) :
    (s.contains (m := StateM Disk) c d).1 = true := has_of_stands stands

theorem Tidy.find_vacant (tidy : s.Tidy first codes d) (vacant : s.Vacant first d c) :
    d.find (s.codePath c) = .error (s.absence first c) := by
  have origin : first.origin (s.codePath c) = d.origin (s.codePath c) := by
    rw [Disk.origin, Disk.origin, tidy.cwd]
  have place : s.entryPlace first c = s.entryPlace d c := by
    rw [entryPlace_eq, entryPlace_eq, Disk.placeOf, Disk.placeOf, Disk.start, Disk.start, tidy.cwd]
  have files := vacant.entry
  have found : d.find (s.codePath c) =
      match d.origin (s.codePath c), d.node? (s.entryPlace d c) with
      | .error e, _ => .error e
      | .ok _, some (.file _) => .error .notDirectory
      | .ok _, _ => .error .notFound :=
    Disk.find_missing tidy.root (plain_toHex c) plain_codeName vacant.code
  rw [found, absence, origin, place]
  generalize d.origin (s.codePath c) = start
  generalize d.node? (s.entryPlace d c) = here at files ⊢
  generalize first.node? (s.entryPlace d c) = before at files ⊢
  cases start with
  | error e => rfl
  | ok =>
      rcases here with _ | b | _
      case some.file =>
        rw [(files b).1 rfl]
      all_goals
        rcases before with _ | b | _
        · rfl
        · cases (files b).2 rfl
        · rfl

theorem Tidy.readCode_vacant (tidy : s.Tidy first codes d) (vacant : s.Vacant first d c) :
    Resolver.readCode s d c = .error (if (s.absence first c).isNotFound then .notFound c
      else .storage ("read " ++ (s.codePath c).text) (s.absence first c)) := by
  show (s.getCode (m := StateM Disk) c d).1 = _
  rw [getCode_eq, Disk.read, tidy.find_vacant vacant]
  rfl

theorem Tidy.contains_vacant (tidy : s.Tidy first codes d) (vacant : s.Vacant first d c) :
    (s.contains (m := StateM Disk) c d).1 = false := by
  have none : d.isFile (s.codePath c) = false := by rw [Disk.isFile, tidy.find_vacant vacant]
  exact none

theorem Tidy.stands_of_readCode (tidy : s.Tidy first codes d)
    (read : Resolver.readCode s d c = .ok code) :
    code ∈ codes ∧ Checksum.of code = c ∧ d.Stands (s.codeDir c) "wrap.wasm" code := by
  rcases tidy.entries c with vacant | ⟨kept, known, own, stands⟩
  · exact nomatch (tidy.readCode_vacant vacant).symm.trans read
  · obtain rfl : kept = code := Except.ok.inj ((readCode_of_stands stands).symm.trans read)
    exact ⟨known, own, stands⟩

theorem Tidy.readCode_create {kept : Bytes} (tidy : s.Tidy first codes d) (mem : code ∈ codes)
    (apart : Apart codes)
    (read : Resolver.readCode s d c = .ok kept) :
    Resolver.readCode s (s.create (m := StateM Disk) code d).2 c = .ok kept := by
  obtain ⟨known, rfl, stands⟩ := tidy.stands_of_readCode read
  exact readCode_of_stands (stands_create tidy.root stands (apart code mem kept known))

/-- Two tidy stores with codes for the same checksums are read alike. -/
theorem Tidy.readCode_congr (tidy : s.Tidy first codes d) (tidy' : s.Tidy first codes d')
    (apart : Apart codes)
    (same : (s.contains (m := StateM Disk) c d).1 = (s.contains (m := StateM Disk) c d').1) :
    Resolver.readCode s d c = Resolver.readCode s d' c := by
  rcases tidy.entries c with vacant | ⟨code, known, own, stands⟩ <;>
    rcases tidy'.entries c with vacant' | ⟨code', known', own', stands'⟩
  · rw [tidy.readCode_vacant vacant, tidy'.readCode_vacant vacant']
  · rw [tidy.contains_vacant vacant, contains_of_stands stands'] at same
    cases same
  · rw [contains_of_stands stands, tidy'.contains_vacant vacant'] at same
    cases same
  · obtain rfl := apart code known code' known' (own.trans own'.symm)
    rw [readCode_of_stands stands, readCode_of_stands stands']

theorem tidy_openIn {dataDir : String} {before : Disk}
    (opened : openIn (m := StateM Disk) dataDir before = (.ok s, first))
    (empty : ∀ c, first.node? (first.placeOf (s.codePath c)) = none) (codes : List Bytes) :
    s.Tidy first codes first where
  cwd := rfl
  root := by
    simp only [openIn, FileSystem.createDirs, bind, StateT.bind] at opened
    obtain ⟨made, made_eq⟩ : ∃ made, before.createDirs (within dataDir).root = made := ⟨_, rfl⟩
    rw [made_eq] at opened
    obtain ⟨e | _, d⟩ := made
    · cases opened
    · cases opened
      have passes := (Disk.passes_createDirs (Path.text_child_isEmpty (by decide)) made_eq).2
      rw [Open, (Disk.within_createDirs made_eq []).start]
      exact passes
  entries c := .inl ⟨empty c, fun _ => Iff.rfl⟩

end Reading

end CodeStore

end ContractHost
