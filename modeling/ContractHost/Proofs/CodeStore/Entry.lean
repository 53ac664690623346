import ContractHost.Proofs.CodeStore.Basic
import ContractHost.Proofs.Wire.Records

/-!
Entries of the code store on a disk.

A code that could be stored has its entry (`stored_of_create`): its directory can be
reached, and the code and its manifest stand in it. That is all that the store needs
to tell about the code (`Stored.holds`). The entry stays when other codes are stored,
since each of them only touches an entry of its own (`within_create`), and storing the
same code again writes what is there already (`Stored.create`).
-/

namespace ContractHost

namespace Manifest

/-- What a manifest has to say about a code. -/
structure Describes (m : Manifest) (code : Bytes) : Prop where
  version : m.version = 1
  checksum : m.checksum = .of code
  size : code.length < 2 ^ 64 → m.size.toNat = code.length
  report : m.report = CapabilityReport.inspect code

theorem describes_of (code : Bytes) : (of code).Describes code where
  version := rfl
  checksum := rfl
  size short := UInt64.toNat_ofNat_of_lt' short
  report := rfl

end Manifest

namespace CodeStore

/-- The exits of storing a code, each with the disk that it leaves. -/
inductive Exit (s : CodeStore) (code : Bytes) (d : Disk) :
    Except StoreError Checksum × Disk → Prop
  | empty : code = [] → Exit s code d (.error (.invalidInput "bytecode must not be empty"), d)
  | noDirectory {e : OsError} {d₁ : Disk} : code ≠ [] →
    d.createDirs (s.codeDir (.of code)) = (.error e, d₁) →
    Exit s code d (.error (.storage ("create " ++ (s.codeDir (.of code)).text) e), d₁)
  | noCode {e : OsError} {d₁ d₂ : Disk} : code ≠ [] →
    d.createDirs (s.codeDir (.of code)) = (.ok (), d₁) →
    d₁.write (s.codePath (.of code)) code = (.error e, d₂) →
    Exit s code d (.error (.storage ("write " ++ (s.codePath (.of code)).text) e), d₂)
  | noManifest {e : OsError} {d₁ d₂ d₃ : Disk} : code ≠ [] →
    d.createDirs (s.codeDir (.of code)) = (.ok (), d₁) →
    d₁.write (s.codePath (.of code)) code = (.ok (), d₂) →
    d₂.write (s.manifestPath (.of code)) (Wire.toJson .pretty (Manifest.of code)) =
      (.error e, d₃) →
    Exit s code d (.error (.storage ("write " ++ (s.manifestPath (.of code)).text) e), d₃)
  | stored {d₁ d₂ d₃ : Disk} : code ≠ [] →
    d.createDirs (s.codeDir (.of code)) = (.ok (), d₁) →
    d₁.write (s.codePath (.of code)) code = (.ok (), d₂) →
    d₂.write (s.manifestPath (.of code)) (Wire.toJson .pretty (Manifest.of code)) = (.ok (), d₃) →
    Exit s code d (.ok (.of code), d₃)

variable {s : CodeStore} {d d' : Disk} {code : Bytes} {c : Checksum}

theorem create_exit (s : CodeStore) (code : Bytes) (d : Disk) :
    Exit s code d (s.create (m := StateM Disk) code d) := by
  by_cases none : code = []
  · subst none
    exact .empty rfl
  have some : code.isEmpty = false := List.isEmpty_eq_false_iff.2 none
  rcases h₁ : d.createDirs (s.codeDir (.of code)) with ⟨made, d₁⟩
  rcases h₂ : d₁.write (s.codePath (.of code)) code with ⟨first, d₂⟩
  rcases h₃ : d₂.write (s.manifestPath (.of code)) (Wire.toJson .pretty (Manifest.of code))
    with ⟨second, d₃⟩
  simp only [create, some, Bool.false_eq_true, if_false, FileSystem.createDirs, FileSystem.write,
    bind, StateT.bind, h₁]
  cases made with
  | error e => exact .noDirectory none h₁
  | ok _ =>
      simp only [StateT.bind, bind, h₂]
      cases first with
      | error e => exact .noCode none h₁ h₂
      | ok _ =>
          simp only [StateT.bind, bind, h₃]
          cases second with
          | error e => exact .noManifest none h₁ h₂ h₃
          | ok _ => exact .stored none h₁ h₂ h₃

def entryPlace (s : CodeStore) (d : Disk) (c : Checksum) : Place := d.placeOf (s.codeDir c)

section Places

theorem plain_toHex (c : Checksum) : Disk.Plain (Bytes.ofText c.toHex) := by
  have length : (Bytes.ofText c.toHex).length = 64 := by
    rw [Checksum.toHex, Hex.length_ofText_encode, c.size]
  refine ⟨fun same => ?_, fun same => ?_, by rw [length]; decide⟩
  all_goals
    rw [same] at length
    cases length

theorem plain_codeName : Disk.Plain (Bytes.ofText "wrap.wasm") :=
  ⟨by decide, by decide, by decide⟩

theorem plain_manifestName : Disk.Plain (Bytes.ofText "wrap.info") :=
  ⟨by decide, by decide, by decide⟩

theorem entryPlace_eq (s : CodeStore) (d : Disk) (c : Checksum) :
    s.entryPlace d c = d.placeOf s.root ++ [Bytes.ofText c.toHex] :=
  d.placeOf_child s.root (plain_toHex c)

theorem codePlace_eq (s : CodeStore) (d : Disk) (c : Checksum) :
    d.placeOf (s.codePath c) = s.entryPlace d c ++ [Bytes.ofText "wrap.wasm"] :=
  d.placeOf_child _ plain_codeName

theorem manifestPlace_eq (s : CodeStore) (d : Disk) (c : Checksum) :
    d.placeOf (s.manifestPath c) = s.entryPlace d c ++ [Bytes.ofText "wrap.info"] :=
  d.placeOf_child _ plain_manifestName

theorem codePlace_below (s : CodeStore) (d : Disk) (c : Checksum) :
    s.entryPlace d c <+: d.placeOf (s.codePath c) := by
  rw [codePlace_eq]
  exact List.prefix_append _ _

theorem manifestPlace_below (s : CodeStore) (d : Disk) (c : Checksum) :
    s.entryPlace d c <+: d.placeOf (s.manifestPath c) := by
  rw [manifestPlace_eq]
  exact List.prefix_append _ _

theorem entryPlace_apart {a b : Checksum} (name : Bytes)
    (below : s.entryPlace d a <+: s.entryPlace d b ++ [name]) : a = b := by
  simp only [entryPlace_eq, List.append_assoc, List.prefix_append_right_inj,
    List.singleton_append] at below
  obtain ⟨same, -⟩ := List.cons_prefix_cons.1 below
  exact Checksum.toHex_injective (Bytes.ofText_injective same)

theorem codeDir_text (s : CodeStore) (c : Checksum) : (s.codeDir c).text.isEmpty = false := by
  refine Path.text_child_isEmpty fun empty => ?_
  have length : (Bytes.ofText c.toHex).length = 64 := by
    rw [Checksum.toHex, Hex.length_ofText_encode, c.size]
  rw [empty] at length
  cases length

end Places

/-- The entry of a code is there, with its manifest beside it. -/
structure Stored (s : CodeStore) (d : Disk) (code : Bytes) : Prop where
  filled : code ≠ []
  origin : d.origin (s.codeDir (.of code)) = .ok (d.start (s.codeDir (.of code)))
  bytecode : d.Stands (s.codeDir (.of code)) "wrap.wasm" code
  info : d.Stands (s.codeDir (.of code)) "wrap.info" (Wire.toJson .pretty (Manifest.of code))

section Storing

variable {d₁ d₂ : Disk} {b : Bytes}

theorem within_writeCode {e : Except OsError Unit}
    (w : Disk.Within (s.entryPlace d c) d d₁) (written : d₁.write (s.codePath c) b = (e, d₂)) :
    Disk.Within (s.entryPlace d c) d d₂ := by
  have below : s.entryPlace d c <+: d₁.placeOf (s.codePath c) := by
    rw [w.placeOf]
    exact codePlace_below s d c
  exact w.trans (Disk.within_write written below)

theorem within_writeManifest {e : Except OsError Unit}
    (w : Disk.Within (s.entryPlace d c) d d₁) (written : d₁.write (s.manifestPath c) b = (e, d₂)) :
    Disk.Within (s.entryPlace d c) d d₂ := by
  have below : s.entryPlace d c <+: d₁.placeOf (s.manifestPath c) := by
    rw [w.placeOf]
    exact manifestPlace_below s d c
  exact w.trans (Disk.within_write written below)

/-- Storing a code changes no file outside its own entry, whether it succeeds or not. -/
theorem within_create (s : CodeStore) (code : Bytes) (d : Disk) :
    Disk.Within (s.entryPlace d (.of code)) d (s.create (m := StateM Disk) code d).2 := by
  have exit := create_exit s code d
  generalize s.create (m := StateM Disk) code d = result at exit
  cases exit with
  | empty _ => exact .refl _ d
  | noDirectory _ made => exact Disk.within_createDirs made _
  | noCode _ made bytecode => exact within_writeCode (Disk.within_createDirs made _) bytecode
  | noManifest _ made bytecode info | stored _ made bytecode info =>
      exact within_writeManifest (within_writeCode (Disk.within_createDirs made _) bytecode) info

/-- A code still stands after its manifest was written, or could not be: that is another file. -/
theorem stands_writeManifest {e : Except OsError Unit}
    (stands : d.Stands (s.codeDir c) "wrap.wasm" code)
    (info : d.write (s.manifestPath c) b = (e, d')) :
    d'.Stands (s.codeDir c) "wrap.wasm" code := by
  have apart : ¬ d.placeOf (s.manifestPath c) <+: d.placeOf (s.codePath c) := by
    rw [manifestPlace_eq, codePlace_eq, List.prefix_append_right_inj]
    decide
  exact stands.within (Disk.within_write info (List.prefix_refl _)) apart

theorem stands_of_writes {d₃ : Disk} {e : Except OsError Unit}
    (made : d.createDirs (s.codeDir c) = (.ok (), d₁))
    (bytecode : d₁.write (s.codePath c) code = (.ok (), d₂))
    (info : d₂.write (s.manifestPath c) b = (e, d₃)) :
    d₃.Stands (s.codeDir c) "wrap.wasm" code := by
  obtain ⟨-, passes⟩ := Disk.passes_createDirs (s.codeDir_text c) made
  rw [← (Disk.within_createDirs made []).start] at passes
  exact stands_writeManifest (.of_write passes plain_codeName bytecode) info

theorem stored_of_create (done : s.create (m := StateM Disk) code d = (.ok c, d')) :
    c = .of code ∧ Stored s d' code := by
  have exit := create_exit s code d
  rw [done] at exit
  cases exit with
  | @stored d₁ d₂ _ filled made bytecode info =>
      obtain ⟨origin, passes⟩ := Disk.passes_createDirs (s.codeDir_text _) made
      have w₁ := Disk.within_createDirs made []
      have w₂ := w₁.trans (Disk.within_write bytecode List.nil_prefix)
      have w₃ := w₂.trans (Disk.within_write info List.nil_prefix)
      refine ⟨rfl, filled, ?_, stands_of_writes made bytecode info,
        .of_write ?_ plain_manifestName info⟩
      · rw [w₃.origin, w₃.start]
        exact origin
      · rw [w₂.start, ← w₁.start]
        exact (Disk.within_write bytecode List.nil_prefix).passes (w₁.start _ ▸ passes)

theorem Stored.create (stored : Stored s d code) :
    s.create (m := StateM Disk) code d = (.ok (.of code), d) := by
  have made := Disk.createDirs_of_passes stored.origin stored.bytecode.passes
  have bytecode : d.write (s.codePath (.of code)) code = _ := stored.bytecode.write
  have info : d.write (s.manifestPath (.of code)) _ = _ := stored.info.write
  have exit := create_exit s code d
  generalize s.create (m := StateM Disk) code d = result at exit ⊢
  cases exit with
  | empty none => exact absurd none stored.filled
  | noDirectory _ made' =>
      rw [made] at made'
      cases made'
  | noCode _ made' bytecode' =>
      rw [made] at made'
      cases made'
      rw [bytecode] at bytecode'
      cases bytecode'
  | noManifest _ made' bytecode' info' =>
      rw [made] at made'
      cases made'
      rw [bytecode] at bytecode'
      cases bytecode'
      rw [info] at info'
      cases info'
  | stored _ made' bytecode' info' =>
      rw [made] at made'
      cases made'
      rw [bytecode] at bytecode'
      cases bytecode'
      rw [info] at info'
      cases info'
      rfl

theorem Stored.create_other {other : Bytes} (stored : Stored s d code)
    (apart : Checksum.of other ≠ Checksum.of code) :
    Stored s (s.create (m := StateM Disk) other d).2 code := by
  have w := within_create s other d
  refine ⟨stored.filled, ?_, stored.bytecode.within w fun below => apart ?_,
    stored.info.within w fun below => apart ?_⟩
  · rw [w.origin, w.start]
    exact stored.origin
  · rw [← codePath, codePlace_eq] at below
    exact entryPlace_apart _ below
  · rw [← manifestPath, manifestPlace_eq] at below
    exact entryPlace_apart _ below

end Storing

/-- What a store tells about a code that it holds. Nothing is written when it is asked. -/
structure Holds (s : CodeStore) (d : Disk) (code : Bytes) : Prop where
  contains : s.contains (m := StateM Disk) (.of code) d = (true, d)
  getCode : s.getCode (m := StateM Disk) (.of code) d = (.ok code, d)
  manifest : ∃ m : Manifest, m.Describes code ∧
    s.manifest (m := StateM Disk) (.of code) d = (.ok (some m), d)
  analyzeCode : s.analyzeCode (m := StateM Disk) (.of code) d =
    (.ok (CapabilityReport.inspect code), d)

theorem records_of (code : Bytes) :
    Records (.of code) (Wire.toJson .pretty (Manifest.of code)) (Manifest.of code) where
  read := Wire.ofJson?_toJson Json.Layout.blank_pretty _
  version := rfl
  checksum := rfl

theorem has_of_stands (stands : d.Stands (s.codeDir c) "wrap.wasm" code) : s.has d c = true :=
  stands.isFile

theorem getCode_of_stands (stands : d.Stands (s.codeDir c) "wrap.wasm" code) :
    s.getCode (m := StateM Disk) c d = (.ok code, d) := by
  have read : d.read (s.codePath c) = .ok code := stands.read
  rw [getCode_eq, read]
  rfl

theorem Stored.holds (stored : Stored s d code) : Holds s d code := by
  have has := has_of_stands stored.bytecode
  have getCode := getCode_of_stands stored.bytecode
  have info : d.read (s.manifestPath (.of code)) = .ok _ := stored.info.read
  have manifest : s.manifest (m := StateM Disk) (.of code) d =
      (.ok (some (Manifest.of code)), d) := by
    rw [manifest_of_read info, usableManifest?_eq_some_iff.2 (records_of code)]
  refine ⟨contains_eq_iff.2 has, getCode, ⟨_, Manifest.describes_of code, manifest⟩, ?_⟩
  rw [analyzeCode_eq, has, manifest]
  rfl

end CodeStore

end ContractHost
