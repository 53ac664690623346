import ContractHost.CodeStore.Basic
import ContractHost.Proofs.Files.Disk

/-!
How a code store looks at an entry on a disk.

Every look leaves the disk as it is, and what comes of it is given by what stands in the
entry: whether there is a code, what the code is, what is recorded beside it, and the
report that follows from the three.
-/

namespace ContractHost

namespace CodeStore

variable {s : CodeStore} {d : Disk} {c : Checksum} {contents : Bytes}

def has (s : CodeStore) (d : Disk) (c : Checksum) : Bool := d.isFile (s.codePath c)

theorem contains_eq (s : CodeStore) (d : Disk) (c : Checksum) :
    s.contains (m := StateM Disk) c d = (s.has d c, d) := rfl

theorem contains_eq_iff {b : Bool} :
    s.contains (m := StateM Disk) c d = (b, d) ↔ s.has d c = b :=
  ⟨congrArg Prod.fst, congrArg (·, d)⟩

theorem getCode_eq (s : CodeStore) (c : Checksum) (d : Disk) :
    s.getCode (m := StateM Disk) c d = ((d.read (s.codePath c)).mapError fun e =>
      if e.isNotFound then .notFound c else .storage ("read " ++ (s.codePath c).text) e, d) := by
  simp only [getCode, FileSystem.read, bind, StateT.bind]
  cases d.read (s.codePath c) <;> rfl

theorem getCode_snd (s : CodeStore) (c : Checksum) (d : Disk) :
    (s.getCode (m := StateM Disk) c d).2 = d := by
  rw [getCode_eq]

theorem has_of_getCode (read : s.getCode (m := StateM Disk) c d = (.ok contents, d)) :
    s.has d c = true := by
  rw [getCode_eq] at read
  cases bytes : d.read (s.codePath c) with
  | error e =>
      rw [bytes] at read
      cases read
  | ok _ =>
      unfold Disk.read at bytes
      split at bytes
      · cases bytes
      · cases bytes
      · next found => rw [has, Disk.isFile, found]

/-- A file holds the manifest of a code: it is read as a manifest, of the version that is written,
with the checksum of the code. -/
structure Records (c : Checksum) (contents : Bytes) (m : Manifest) : Prop where
  read : Wire.ofJson? contents = some m
  version : m.version = 1
  checksum : m.checksum = c

theorem usableManifest?_eq_some_iff {m : Manifest} :
    usableManifest? c contents = some m ↔ Records c contents m := by
  unfold usableManifest?
  constructor
  · intro usable
    split at usable
    · cases usable
    next f read =>
    split at usable
    · next own =>
      cases usable
      exact ⟨read, own.1, own.2⟩
    · cases usable
  · intro records
    rw [records.read]
    exact if_pos ⟨records.version, records.checksum⟩

theorem usableManifest?_eq_none_iff :
    usableManifest? c contents = none ↔ ¬ ∃ m, Records c contents m := by
  simp [Option.eq_none_iff_forall_ne_some, usableManifest?_eq_some_iff]

theorem manifest_of_read (read : d.read (s.manifestPath c) = .ok contents) :
    s.manifest (m := StateM Disk) c d = (.ok (usableManifest? c contents), d) := by
  simp only [manifest, FileSystem.read, bind, StateT.bind, read]
  rfl

theorem manifest_of_unread {e : OsError} (unread : d.read (s.manifestPath c) = .error e) :
    s.manifest (m := StateM Disk) c d = (if e.isNotFound then .ok none
      else .error (.storage ("read " ++ (s.manifestPath c).text) e), d) := by
  simp only [manifest, FileSystem.read, bind, StateT.bind, unread]
  rfl

theorem manifest_snd (s : CodeStore) (c : Checksum) (d : Disk) :
    (s.manifest (m := StateM Disk) c d).2 = d := by
  cases read : d.read (s.manifestPath c) with
  | ok contents => rw [manifest_of_read read]
  | error e => rw [manifest_of_unread read]

/-- What comes of an analysis of a code that is there, given what is recorded and what is read. -/
def analysis (recorded : Except StoreError (Option Manifest)) (read : Except StoreError Bytes) :
    Except StoreError CapabilityReport :=
  match recorded with
  | .error e => .error e
  | .ok (some m) => .ok m.report
  | .ok none => read.map CapabilityReport.inspect

theorem analyzeCode_eq (s : CodeStore) (c : Checksum) (d : Disk) :
    s.analyzeCode (m := StateM Disk) c d =
      (if s.has d c then
        analysis (s.manifest (m := StateM Disk) c d).1 (s.getCode (m := StateM Disk) c d).1
      else .error (.notFound c), d) := by
  obtain ⟨recorded, manifest⟩ : ∃ recorded, s.manifest (m := StateM Disk) c d = (recorded, d) :=
    ⟨_, Prod.ext rfl (s.manifest_snd c d)⟩
  obtain ⟨read, getCode⟩ : ∃ read, s.getCode (m := StateM Disk) c d = (read, d) :=
    ⟨_, Prod.ext rfl (s.getCode_snd c d)⟩
  simp only [analyzeCode, bind, StateT.bind, contains_eq, manifest, getCode]
  cases s.has d c with
  | false => rfl
  | true =>
      simp only [if_true, StateT.bind, bind, manifest]
      rcases recorded with e | _ | m
      · rfl
      · simp only [StateT.bind, bind, getCode]
        cases read <;> rfl
      · rfl

theorem analyzeCode_snd (s : CodeStore) (c : Checksum) (d : Disk) :
    (s.analyzeCode (m := StateM Disk) c d).2 = d := by
  rw [analyzeCode_eq]

end CodeStore

end ContractHost
