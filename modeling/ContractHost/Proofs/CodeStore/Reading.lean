import ContractHost.Proofs.CodeStore.Entry

/-!
What a store tells about an entry, on every disk.

A code is there exactly if it can be read; then the way to its entry is open, so that all
that can be said about the manifest is what stands at its place: nothing, a directory, or
a file of whatever contents. The analysis follows from that alone (`reading_consistent`).
-/

namespace ContractHost

namespace CodeStore

variable {s : CodeStore} {d : Disk} {c : Checksum} {code : Bytes}

def infoNode (s : CodeStore) (d : Disk) (c : Checksum) : Option Node :=
  d.node? (d.placeOf (s.manifestPath c))

/-- What the store tells about an entry. The different looks at it never contradict each other. -/
structure Consistent (s : CodeStore) (d : Disk) (c : Checksum) : Prop where
  /-- A code is there exactly if it can be read. -/
  contains_iff : s.contains (m := StateM Disk) c d = (true, d) ↔
    ∃ code, s.getCode (m := StateM Disk) c d = (.ok code, d)
  /-- A code that is there is never missing when it is read. -/
  getCode_found (c' : Checksum) : s.contains (m := StateM Disk) c d = (true, d) →
    s.getCode (m := StateM Disk) c d ≠ (.error (.notFound c'), d)
  /-- A code is missing for the analysis exactly if it is not there. -/
  analyzeCode_missing_iff : (∃ c', s.analyzeCode (m := StateM Disk) c d =
    (.error (.notFound c'), d)) ↔ s.contains (m := StateM Disk) c d = (false, d)
  /-- The report that is recorded in the manifest of a code is the report of the code. -/
  recorded {contents : Bytes} {m : Manifest} : s.contains (m := StateM Disk) c d = (true, d) →
    s.infoNode d c = some (.file contents) → Records c contents m →
      s.analyzeCode (m := StateM Disk) c d = (.ok m.report, d)
  /-- Without a manifest, and beside a file that is not its manifest, a code is inspected. -/
  inspected {code : Bytes} : s.getCode (m := StateM Disk) c d = (.ok code, d) →
    (s.infoNode d c = none ∨ ∃ contents, s.infoNode d c = some (.file contents) ∧
      ¬ ∃ m, Records c contents m) →
      s.analyzeCode (m := StateM Disk) c d = (.ok (CapabilityReport.inspect code), d)
  /-- The analysis of a code that is there only fails where a directory takes the place of the
  manifest, and that is a failure of the storage. -/
  failed_iff (e : StoreError) : s.contains (m := StateM Disk) c d = (true, d) →
    (s.analyzeCode (m := StateM Disk) c d = (.error e, d) ↔ s.infoNode d c = some .dir ∧
      e = .storage ("read " ++ (s.manifestPath c).text) .isDirectory)

theorem stands_of_has (has : s.has d c = true) :
    ∃ code, d.Stands (s.codeDir c) "wrap.wasm" code :=
  Disk.Stands.of_isFile plain_codeName has

theorem manifest_beside (stands : d.Stands (s.codeDir c) "wrap.wasm" code) :
    s.manifest (m := StateM Disk) c d =
      (match s.infoNode d c with
        | none => .ok none
        | some (.file contents) => .ok (usableManifest? c contents)
        | some .dir => .error (.storage ("read " ++ (s.manifestPath c).text) .isDirectory), d) := by
  have found : d.find (s.manifestPath c) = _ := stands.find_beside plain_manifestName rfl
  cases there : d.node? (d.placeOf ((s.codeDir c).child "wrap.info")) with
  | none =>
      rw [there] at found
      have unread : d.read (s.manifestPath c) = .error .notFound := by rw [Disk.read, found]
      rw [manifest_of_unread unread, infoNode, manifestPath, there]
      rfl
  | some n =>
      rw [there] at found
      cases n with
      | file contents =>
          have read : d.read (s.manifestPath c) = .ok contents := by rw [Disk.read, found]
          rw [manifest_of_read read, infoNode, manifestPath, there]
      | dir =>
          have unread : d.read (s.manifestPath c) = .error .isDirectory := by rw [Disk.read, found]
          rw [manifest_of_unread unread, infoNode, manifestPath, there]
          rfl

/-- What stands at the place of the manifest decides the analysis of a code. -/
theorem analyzeCode_beside (stands : d.Stands (s.codeDir c) "wrap.wasm" code) :
    s.analyzeCode (m := StateM Disk) c d =
      (match s.infoNode d c with
        | none => .ok (CapabilityReport.inspect code)
        | some (.file contents) =>
          .ok ((usableManifest? c contents).elim (CapabilityReport.inspect code) Manifest.report)
        | some .dir => .error (.storage ("read " ++ (s.manifestPath c).text) .isDirectory), d) := by
  rw [analyzeCode_eq, has_of_stands stands, getCode_of_stands stands, manifest_beside stands]
  cases s.infoNode d c with
  | none => rfl
  | some n =>
      cases n with
      | file contents => cases usable : usableManifest? c contents <;> simp [usable, analysis, Except.map]
      | dir => rfl

/-- Whatever stands at an entry and around it, the store tells the same story about it. -/
theorem reading_consistent (s : CodeStore) (d : Disk) (c : Checksum) : s.Consistent d c where
  contains_iff := by
    rw [contains_eq_iff]
    constructor
    · intro has
      obtain ⟨code, stands⟩ := stands_of_has has
      exact ⟨code, getCode_of_stands stands⟩
    · rintro ⟨code, read⟩
      exact has_of_getCode read
  getCode_found c' there missing := by
    obtain ⟨code, stands⟩ := stands_of_has (contains_eq_iff.1 there)
    cases (getCode_of_stands stands).symm.trans missing
  analyzeCode_missing_iff := by
    rw [contains_eq_iff]
    constructor
    · rintro ⟨c', missing⟩
      by_contra held
      obtain ⟨code, stands⟩ := stands_of_has (Bool.eq_true_of_not_eq_false held)
      have told := (analyzeCode_beside stands).symm.trans missing
      split at told <;> cases told
    · intro absent
      refine ⟨c, ?_⟩
      rw [analyzeCode_eq, absent]
      rfl
  recorded there file records := by
    obtain ⟨code, stands⟩ := stands_of_has (contains_eq_iff.1 there)
    rw [analyzeCode_beside stands, file]
    simp only [usableManifest?_eq_some_iff.2 records, Option.elim_some]
  inspected read nothing := by
    obtain ⟨code, stands⟩ := stands_of_has (has_of_getCode read)
    cases (getCode_of_stands stands).symm.trans read
    rw [analyzeCode_beside stands]
    rcases nothing with absent | ⟨contents, file, other⟩
    · rw [absent]
    · rw [file]
      simp only [usableManifest?_eq_none_iff.2 other, Option.elim_none]
  failed_iff e there := by
    obtain ⟨code, stands⟩ := stands_of_has (contains_eq_iff.1 there)
    rw [analyzeCode_beside stands]
    constructor
    · intro failed
      split at failed
      · cases failed
      · cases failed
      · next dir =>
        cases failed
        exact ⟨dir, rfl⟩
    · rintro ⟨dir, rfl⟩
      rw [dir]

end CodeStore

end ContractHost
