import ContractHost.CapabilityReport
import ContractHost.Proofs.Wasm.Grammar
import Mathlib.Control.Monad.Basic

/-!
What a report of capabilities says. A code that is a module is reported by the names of the
functions that the grammar of modules has for it; a code that is none is reported like a code that
exports nothing, however much of it could be read (`inspect_grammar`).
-/

namespace ContractHost.CapabilityReport

/-- The report of a code that exports functions of exactly these names. -/
structure Tells (report : CapabilityReport) (names : TextSet) : Prop where
  exports : report.exports = names
  /-- A capability is required by a function that is named for it, and no capability has no name. -/
  capabilities (cap : String) : report.requiredCapabilities.contains cap = true ↔
    cap ≠ "" ∧ names.contains (capabilityMark ++ cap) = true
  ibc : report.hasIbcEntryPoints = true ↔ ∀ e ∈ ibcEntryPoints, names.contains e = true

theorem capability?_eq_some_iff {name cap : String} :
    capability? name = some cap ↔ cap ≠ "" ∧ name = capabilityMark ++ cap := by
  unfold capability?
  split
  · next c cs found =>
    rw [List.isPrefixOf?_eq_some_iff_append_eq] at found
    constructor
    · intro h
      cases h
      refine ⟨by simp, ?_⟩
      ext1
      rw [String.toList_append, ← found, String.toList_ofList]
    · rintro ⟨-, rfl⟩
      rw [String.toList_append] at found
      rw [List.append_cancel_left found, String.ofList_toList]
  · next other =>
    simp only [reduceCtorEq, false_iff]
    rintro ⟨filled, rfl⟩
    cases whole : cap.toList with
    | nil => exact filled (by simpa using whole)
    | cons c cs =>
        apply other c cs
        rw [List.isPrefixOf?_eq_some_iff_append_eq, String.toList_append, whole]

theorem ofExports_tells (names : TextSet) : (ofExports names).Tells names where
  exports := rfl
  capabilities cap := by
    show (TextSet.ofList (names.keys.filterMap capability?)).contains cap = true ↔ _
    rw [TextSet.contains_ofList, List.mem_filterMap]
    simp only [capability?_eq_some_iff, Table.mem_keys_iff]
    constructor
    · rintro ⟨name, held, filled, rfl⟩
      exact ⟨filled, held⟩
    · rintro ⟨filled, held⟩
      exact ⟨_, held, filled, rfl⟩
  ibc := List.all_eq_true

/-- Inspection recognises modules by their grammar. The functions of a code are found if and only
if the code is a module that exports them; the report then tells of exactly those, and of any other
bytes it tells nothing at all. -/
theorem inspect_grammar (code : Bytes) :
    (∀ names, Wasm.exportedFunctions code = some names ↔ Wasm.Exports code names) ∧
      (∀ names, Wasm.Exports code names → (inspect code).Tells names) ∧
      ((∀ names, ¬ Wasm.Exports code names) → inspect code = none) := by
  refine ⟨fun names => Wasm.exportedFunctions_eq_some_iff, ?_, ?_⟩
  · intro names exported
    have read := Wasm.exportedFunctions_eq_some_iff.2 exported
    simp only [inspect, read]
    exact ofExports_tells names
  · intro unexported
    unfold inspect
    split
    · next names read => exact absurd (Wasm.exportedFunctions_eq_some_iff.1 read) (unexported names)
    · rfl

/-- A module with two export sections, behind a section whose size is written in two bytes. The
first of the two counts a function and a memory, and three bytes follow these. -/
def twice : Bytes :=
  Wasm.header ++ [0x00, 0x81, 0x00, 0xFF] ++
    [0x07, 0x1A, 0x02] ++ (0x0A :: Bytes.ofText "requires_x" ++ [0x00, 0x00]) ++
      (0x06 :: Bytes.ofText "memory" ++ [0x02, 0x00]) ++ [0xFF, 0xFF, 0xFF] ++
    [0x07, 0x06, 0x01] ++ (0x02 :: Bytes.ofText "go" ++ [0x00, 0x00])

theorem exports_twice :
    Wasm.exports twice = some [⟨"requires_x", 0⟩, ⟨"memory", 2⟩, ⟨"go", 0⟩] ∧
      Wasm.exports twice.dropLast = .none := by
  have padding (b : Bytes) :
      Wasm.readSection (0x00 :: 0x81 :: 0x00 :: 0xFF :: b) = some (⟨0x00, [0xFF]⟩, b) := by
    have size : Wasm.Leb128.read (0x81 :: 0x00 :: 0xFF :: b) = some (1, 0xFF :: b) := rfl
    rw [Wasm.readSection, size]
    rfl
  constructor
  · have header : Wasm.header.isPrefixOf? twice =
        some (0x00 :: 0x81 :: 0x00 :: 0xFF :: twice.drop 12) := rfl
    have first : Wasm.readSection (twice.drop 12) =
        some (⟨7, (twice.drop 14).take 26⟩, twice.drop 40) := rfl
    have second : Wasm.readSection (twice.drop 40) =
        some (⟨7, [0x01, 0x02, 0x67, 0x6F, 0x00, 0x00]⟩, []) := rfl
    rw [Wasm.exports, header, Option.bind_eq_bind, Option.bind_some,
      Wasm.readSections_of_read (padding _), Wasm.readSections_of_read first,
      Wasm.readSections_of_read second, Wasm.readSections_nil]
    rfl
  · have header : Wasm.header.isPrefixOf? twice.dropLast =
        some (0x00 :: 0x81 :: 0x00 :: 0xFF :: twice.dropLast.drop 12) := rfl
    have first : Wasm.readSection (twice.dropLast.drop 12) =
        some (⟨7, (twice.drop 14).take 26⟩, twice.dropLast.drop 40) := rfl
    have second : Wasm.readSection (twice.dropLast.drop 40) = .none := rfl
    rw [Wasm.exports, header, Option.bind_eq_bind, Option.bind_some,
      Wasm.readSections_of_read (padding _), Wasm.readSections_of_read first,
      Wasm.readSections_of_unread (by decide) second]
    rfl

/-- Of this module both functions are told, and nothing once its last byte is missing. -/
theorem inspect_grammar_twice :
    Wasm.Exports twice (TextSet.ofList ["requires_x", "go"]) ∧
      (inspect twice).Tells (TextSet.ofList ["requires_x", "go"]) ∧
      (∀ names, ¬ Wasm.Exports twice.dropLast names) ∧ inspect twice.dropLast = none := by
  obtain ⟨whole, short⟩ := exports_twice
  have exported : Wasm.Exports twice (TextSet.ofList ["requires_x", "go"]) := by
    apply ((inspect_grammar twice).1 _).1
    rw [Wasm.exportedFunctions, whole]
    decide +kernel
  have unexported : ∀ names, ¬ Wasm.Exports twice.dropLast names := by
    intro names exported
    have read := ((inspect_grammar twice.dropLast).1 names).2 exported
    rw [Wasm.exportedFunctions, short] at read
    cases read
  exact ⟨exported, (inspect_grammar twice).2.1 _ exported, unexported,
    (inspect_grammar twice.dropLast).2.2 unexported⟩

end ContractHost.CapabilityReport
