import ContractHost.Proofs.CodeStore.Run
import ContractHost.Proofs.Json.Prefix

/-!
A manifest of which only the first bytes were written.

No front of a manifest can be used (`usableManifest?_take`), so the code beside it is
inspected anew, and that gives what the whole manifest says (`torn_manifest`).
-/

namespace ContractHost

def Manifest.written (code : Bytes) : Bytes := Wire.toJson .pretty (of code)

theorem Manifest.written_eq (code : Bytes) :
    ∃ entries, written code = Json.write .pretty (.map entries) := by
  have object (m : Manifest) : ∃ entries, Wire.toDoc m = .map entries := ⟨_, rfl⟩
  obtain ⟨entries, eq⟩ := object (of code)
  exact ⟨entries, by rw [written, Wire.toJson, eq]⟩

namespace CodeStore

variable {s : CodeStore} {d d' : Disk} {code : Bytes} {c : Checksum} {k : Nat}

/-- A code is there, and the file of its manifest holds only the first bytes of it, or all. -/
structure Torn (s : CodeStore) (d : Disk) (code : Bytes) (k : Nat) : Prop where
  getCode : s.getCode (m := StateM Disk) (.of code) d = (.ok code, d)
  read : d.read (s.manifestPath (.of code)) = .ok ((Manifest.written code).take k)

/-- No front of a manifest can be used. -/
theorem usableManifest?_take (c : Checksum) (short : k < (Manifest.written code).length) :
    usableManifest? c ((Manifest.written code).take k) = none := by
  refine usableManifest?_eq_none_iff.2 ?_
  rintro ⟨m, records⟩
  have front : Json.Tree.parse ((Manifest.written code).take k) = none := by
    obtain ⟨entries, eq⟩ := Manifest.written_eq code
    rw [eq] at short ⊢
    exact Json.parse_take_write Json.Layout.blank_pretty entries short
  have unread : Wire.ofJson? (α := Manifest) ((Manifest.written code).take k) = none := by
    rw [Wire.ofJson?, front]
  cases unread.symm.trans records.read

theorem Torn.manifest (torn : Torn s d code k) :
    s.manifest (m := StateM Disk) (.of code) d =
      (.ok (if k < (Manifest.written code).length then none else some (Manifest.of code)), d) := by
  rw [manifest_of_read torn.read]
  split
  · next short => rw [usableManifest?_take _ short]
  · next whole =>
    rw [List.take_of_length_le (Nat.not_lt.1 whole)]
    exact congrArg (Except.ok ·, d) (usableManifest?_eq_some_iff.2 (records_of code))

theorem Torn.analyzeCode (torn : Torn s d code k) :
    s.analyzeCode (m := StateM Disk) (.of code) d = (.ok (CapabilityReport.inspect code), d) := by
  rw [analyzeCode_eq, has_of_getCode torn.getCode, torn.manifest, torn.getCode]
  by_cases short : k < (Manifest.written code).length
  · rw [if_pos short]
    rfl
  · rw [if_neg short]
    rfl

theorem Stored.tear (stored : Stored s d code) (k : Nat) : ∃ torn,
    d.write (s.manifestPath (.of code)) ((Manifest.written code).take k) = (.ok (), torn) ∧
      Torn s torn code k := by
  obtain ⟨torn, written, stands⟩ := stored.info.rewrite ((Manifest.written code).take k)
  exact ⟨torn, written, getCode_of_stands (stands_writeManifest stored.bytecode written),
    stands.read⟩

/-- A torn manifest never changes the analysis. Storing a code writes its whole manifest; wherever
the file of the manifest holds only the first bytes of that and the code is there, the code is
analysed as before, and no manifest is found unless those bytes are all. -/
theorem torn_manifest (done : s.create (m := StateM Disk) code d = (.ok c, d')) :
    c = .of code ∧ d'.read (s.manifestPath c) = .ok (Manifest.written code) ∧ ∀ k,
      (∃ torn, d'.write (s.manifestPath c) ((Manifest.written code).take k) = (.ok (), torn) ∧
        Torn s torn code k) ∧
      ∀ torn, Torn s torn code k →
        s.analyzeCode (m := StateM Disk) c torn = (.ok (CapabilityReport.inspect code), torn) ∧
        s.manifest (m := StateM Disk) c torn =
          (.ok (if k < (Manifest.written code).length then none else some (Manifest.of code)), torn) := by
  obtain ⟨rfl, stored⟩ := stored_of_create done
  refine ⟨rfl, stored.info.read, fun k => ⟨stored.tear k, fun _ torn => ?_⟩⟩
  exact ⟨torn.analyzeCode, torn.manifest⟩

/-- A code whose manifest is torn after three bytes. -/
theorem torn_manifest_begun :
    ((within "data").create (m := StateM Disk) [1] begun).1 = .ok (.of [1]) ∧
    ∃ torn, Torn (within "data") torn [1] 3 ∧
      (within "data").analyzeCode (m := StateM Disk) (.of [1]) torn =
        (.ok (CapabilityReport.inspect [1]), torn) := by
  have done : ((within "data").create (m := StateM Disk) [1] begun).1 = .ok (.of [1]) := by
    decide +kernel
  have whole : (within "data").create (m := StateM Disk) [1] begun =
      (.ok (.of [1]), ((within "data").create (m := StateM Disk) [1] begun).2) := by
    rw [← done, Prod.mk.eta]
  obtain ⟨-, -, each⟩ := torn_manifest whole
  obtain ⟨⟨torn, -, cut⟩, told⟩ := each 3
  exact ⟨done, torn, cut, (told torn cut).1⟩

end CodeStore

end ContractHost
