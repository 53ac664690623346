import ContractHost.Proofs.Bytes
import ContractHost.Proofs.Traversal
import ContractHost.Wasm.Module
import Mathlib.Algebra.Group.Nat.Defs
import Mathlib.Data.List.Forall2

/-!
The grammar of modules, as far as exported functions need it, and the reader that follows it.

Each part of a module has its own grammar and its own reader, and the parts are put together to
what a code exports (`Wasm.Exports`).
-/

namespace ContractHost

namespace Wasm

namespace Leb128

/-- Seven bits a byte, the low ones first; every byte but the last has its high bit set. -/
inductive Digits : Nat → Bytes → Prop
  | last (b : UInt8) (plain : b < 128) : Digits b.toNat [b]
  | more (b : UInt8) {n : Nat} {rest : Bytes} (marked : 128 ≤ b) (others : Digits n rest) :
      Digits (b.toNat - 128 + 128 * n) (b :: rest)

/-- A number that fits in 64 bits, in at most ten bytes. High groups of zeros are allowed. -/
structure Spelled (n : Nat) (b : Bytes) : Prop where
  digits : Digits n b
  size : b.length ≤ 10
  fits : n < 2 ^ 64

end Leb128

def Export.Spelled (e : Export) (b : Bytes) : Prop :=
  ∃ length index i, Leb128.Spelled (Bytes.ofText e.name).length length ∧ Leb128.Spelled i index ∧
    b = length ++ (Bytes.ofText e.name ++ e.kind :: index)

def Section.Spelled (s : Section) (b : Bytes) : Prop :=
  ∃ size, Leb128.Spelled s.body.length size ∧ b = s.id :: (size ++ s.body)

/-- A section counts these items: an export section starts with their number and the items
themselves, whatever follows them, and every other section counts none. -/
def Section.Counts (s : Section) (items : List Export) : Prop :=
  if s.id = exportSection then
    ∃ count entries rest, Leb128.Spelled items.length count ∧
      Bytes.InTurn Export.Spelled items entries ∧ s.body = count ++ (entries ++ rest)
  else items = []

def Module (sections : List Section) (code : Bytes) : Prop :=
  ∃ parts, Bytes.InTurn Section.Spelled sections parts ∧ code = header ++ parts

/-- A code is a module whose sections count, as functions, items of exactly these names. -/
def Exports (code : Bytes) (names : TextSet) : Prop :=
  ∃ sections items, Module sections code ∧ List.Forall₂ Section.Counts sections items ∧
    ∀ name, names.contains name = true ↔
      ∃ e ∈ items.flatten, e.kind = functionKind ∧ e.name = name

namespace Leb128

theorem Digits.ne_nil {n : Nat} {b : Bytes} (d : Digits n b) : b ≠ [] := by
  cases d <;> simp

theorem two_pow_groups (more : Nat) : 2 ^ (7 * (more + 1) + 1) = 128 * 2 ^ (7 * more + 1) := by
  rw [show 7 * (more + 1) + 1 = 7 + (7 * more + 1) by omega, Nat.pow_add]

/-- What is read is a number, of at most so many bytes after the first one, that fits in the bits
which these leave: seven for each of them, and one for the last. -/
theorem digits_of_readDigits {more n : Nat} {b rest : Bytes}
    (read : readDigits more b = some (n, rest)) :
    ∃ digits, b = digits ++ rest ∧ Digits n digits ∧ digits.length ≤ more + 1 ∧
      n < 2 ^ (7 * more + 1) := by
  induction b generalizing more n with
  | nil => simp [readDigits] at read
  | cons x tail ih =>
      rw [readDigits] at read
      split at read
      · cases read
      next bit =>
      rw [UInt8.lt_iff_toNat_lt, show (1 : UInt8).toNat = 1 from rfl] at bit
      split at read
      · next plain =>
        have plain' : x.toNat < 128 := UInt8.lt_iff_toNat_lt.1 plain
        cases read
        refine ⟨[x], rfl, .last x plain, by simp, ?_⟩
        cases more with
        | zero => omega
        | succ more =>
            have room := Nat.two_pow_pos (7 * more + 1)
            rw [two_pow_groups]
            omega
      · next marked =>
        have byte := x.toNat_lt
        have marked' : 128 ≤ x.toNat := UInt8.le_iff_toNat_le.1 (UInt8.not_lt.1 marked)
        obtain ⟨more, rfl⟩ : ∃ k, more = k + 1 := Nat.exists_eq_succ_of_ne_zero (by omega)
        obtain ⟨⟨m, r⟩, others, eq⟩ := Option.map_eq_some_iff.1 read
        cases eq
        rw [Nat.add_sub_cancel] at others
        obtain ⟨digits, rfl, d, size, fits⟩ := ih others
        refine ⟨x :: digits, rfl, .more x (UInt8.not_lt.1 marked) d, Nat.succ_le_succ size, ?_⟩
        rw [two_pow_groups]
        omega

theorem readDigits_of_digits {more n : Nat} {digits : Bytes} (d : Digits n digits)
    (size : digits.length ≤ more + 1) (fits : n < 2 ^ (7 * more + 1)) (rest : Bytes) :
    readDigits more (digits ++ rest) = some (n, rest) := by
  induction d generalizing more with
  | last x plain =>
      have bit : ¬ (more = 0 ∧ 1 < x) := by
        rw [UInt8.lt_iff_toNat_lt, show (1 : UInt8).toNat = 1 from rfl]
        rintro ⟨rfl, big⟩
        omega
      rw [List.singleton_append, readDigits, if_neg bit, if_pos plain]
  | more x marked d ih =>
      have others := List.length_pos_iff.2 d.ne_nil
      obtain ⟨more, rfl⟩ : ∃ k, more = k + 1 := Nat.exists_eq_succ_of_ne_zero fun last => by
        rw [last, List.length_cons] at size
        omega
      rw [two_pow_groups] at fits
      have read := ih (Nat.le_of_succ_le_succ size) (by omega)
      rw [List.cons_append, readDigits, if_neg (by simp), if_neg (UInt8.not_lt.2 marked)]
      exact Option.map_eq_some_iff.2 ⟨_, read, rfl⟩

theorem reads : Bytes.Reads read Spelled := by
  intro b n rest
  constructor
  · intro done
    obtain ⟨digits, rfl, d, size, fits⟩ := digits_of_readDigits done
    exact ⟨digits, rfl, d, size, fits⟩
  · rintro ⟨digits, rfl, d, size, fits⟩
    exact readDigits_of_digits d size fits rest

end Leb128

theorem readExport_reads : Bytes.Reads readExport Export.Spelled := by
  intro b e rest
  simp only [readExport, Option.bind_eq_bind, Option.bind_eq_some_iff, Prod.exists]
  constructor
  · rintro ⟨n, _, read, named, _, cut, name, text, read'⟩
    obtain ⟨length, rfl, long⟩ := (Leb128.reads _ _ _).1 read
    obtain ⟨rfl, rfl⟩ := Bytes.split?_eq_some_iff.1 cut
    obtain rfl := Bytes.text?_eq_some_iff.1 text
    split at read'
    · cases read'
    · simp only [Option.bind_eq_some_iff, Prod.exists] at read'
      obtain ⟨i, _, read'', eq⟩ := read'
      obtain ⟨index, rfl, indexed⟩ := (Leb128.reads _ _ _).1 read''
      cases eq
      exact ⟨_, by simp, length, index, i, long, indexed, rfl⟩
  · rintro ⟨_, rfl, length, index, i, long, indexed, rfl⟩
    simp only [List.append_assoc, List.cons_append]
    refine ⟨_, _, Leb128.reads.append long _, _, _, Bytes.split?_append .., _,
      Bytes.text?_ofText _, ?_⟩
    simp only [Leb128.reads.append indexed rest]
    rfl

theorem readExports_eq_some_iff {n : Nat} {b : Bytes} {items : List Export} :
    readExports n b = some items ↔
      items.length = n ∧ ∃ entries rest, Bytes.InTurn Export.Spelled items entries ∧
        b = entries ++ rest := by
  induction n generalizing b items with
  | zero =>
      rw [List.length_eq_zero_iff]
      constructor
      · intro read
        cases read
        exact ⟨rfl, [], b, .nil, rfl⟩
      · rintro ⟨rfl, -⟩
        rfl
  | succ n ih =>
      simp only [readExports, Option.bind_eq_bind, Option.bind_eq_some_iff, Prod.exists]
      constructor
      · rintro ⟨e, _, read, others, read', eq⟩
        obtain ⟨front, rfl, spelled⟩ := (readExport_reads _ _ _).1 read
        obtain ⟨rfl, entries, rest, inTurn, rfl⟩ := ih.1 read'
        cases eq
        exact ⟨rfl, front ++ entries, rest, .cons spelled inTurn, (List.append_assoc ..).symm⟩
      · rintro ⟨size, entries, rest, inTurn, rfl⟩
        cases inTurn with
        | nil => cases size
        | @cons e others front back spelled inTurn =>
            have read := ih.2 ⟨Nat.succ.inj size, back, rest, inTurn, rfl⟩
            rw [List.append_assoc]
            exact ⟨e, _, readExport_reads.append spelled _, others, read, rfl⟩

theorem readSection_reads : Bytes.Reads readSection Section.Spelled := by
  intro b s rest
  cases b with
  | nil => simp [readSection, Section.Spelled]
  | cons id b =>
      simp only [readSection, Option.bind_eq_bind, Option.bind_eq_some_iff, Prod.exists]
      constructor
      · rintro ⟨n, _, read, body, _, cut, eq⟩
        obtain ⟨size, rfl, long⟩ := (Leb128.reads _ _ _).1 read
        obtain ⟨rfl, rfl⟩ := Bytes.split?_eq_some_iff.1 cut
        cases eq
        exact ⟨id :: (size ++ body), by simp, size, long, rfl⟩
      · rintro ⟨_, eq, size, long, rfl⟩
        cases eq
        simp only [List.append_eq, List.append_assoc]
        exact ⟨_, _, Leb128.reads.append long _, _, _, Bytes.split?_append .., rfl⟩

theorem Section.Spelled.ne_nil {s : Section} {b : Bytes} (spelled : s.Spelled b) : b ≠ [] := by
  obtain ⟨size, -, rfl⟩ := spelled
  exact List.cons_ne_nil _ _

theorem readSections_nil : readSections [] = some [] := by
  rw [readSections]
  rfl

theorem readSections_of_unread {b : Bytes} (filled : ¬ b.isEmpty = true)
    (unread : readSection b = none) : readSections b = none := by
  rw [readSections, if_neg filled]
  split
  · rfl
  · next read => cases unread.symm.trans read

theorem filled_of_read {b rest : Bytes} {s : Section} (read : readSection b = some (s, rest)) :
    ¬ b.isEmpty = true := by
  intro empty
  rw [List.isEmpty_iff.1 empty] at read
  cases read

theorem readSections_of_read {b rest : Bytes} {s : Section} (read : readSection b = some (s, rest)) :
    readSections b = (readSections rest).map (s :: ·) := by
  rw [readSections, if_neg (filled_of_read read)]
  split
  · next unread => cases unread.symm.trans read
  · next read' =>
    cases read.symm.trans read'
    rfl

theorem readSections_eq_some_iff {b : Bytes} {sections : List Section} :
    readSections b = some sections ↔ Bytes.InTurn Section.Spelled sections b := by
  fun_induction readSections b generalizing sections with
  | case1 b empty =>
      obtain rfl := List.isEmpty_iff.1 empty
      rw [Option.some_inj]
      constructor
      · rintro rfl
        exact .nil
      · intro inTurn
        generalize whole : ([] : Bytes) = b at inTurn
        cases inTurn with
        | nil => rfl
        | cons first others =>
            exact absurd (List.append_eq_nil_iff.1 whole.symm).1 first.ne_nil
  | case2 b filled unread =>
      simp only [reduceCtorEq, false_iff]
      intro inTurn
      cases inTurn with
      | nil => exact filled rfl
      | cons first others =>
          exact nomatch unread.symm.trans (readSection_reads.append first _)
  | case3 b filled s rest read ih =>
      rw [Option.map_eq_some_iff]
      constructor
      · rintro ⟨others, read', rfl⟩
        obtain ⟨front, rfl, spelled⟩ := (readSection_reads _ _ _).1 read
        exact .cons spelled (ih.1 read')
      · intro inTurn
        cases inTurn with
        | nil => exact absurd rfl filled
        | cons first others =>
            cases read.symm.trans (readSection_reads.append first _)
            exact ⟨_, ih.2 others, rfl⟩

theorem Section.exports_eq_some_iff {s : Section} {items : List Export} :
    s.exports = some items ↔ s.Counts items := by
  unfold Section.exports Section.Counts
  split
  · simp only [Option.bind_eq_bind, Option.bind_eq_some_iff, Prod.exists]
    constructor
    · rintro ⟨n, _, read, read'⟩
      obtain ⟨count, body, counted⟩ := (Leb128.reads _ _ _).1 read
      obtain ⟨rfl, entries, rest, inTurn, rfl⟩ := readExports_eq_some_iff.1 read'
      exact ⟨count, entries, rest, counted, inTurn, body⟩
    · rintro ⟨count, entries, rest, counted, inTurn, body⟩
      rw [body]
      exact ⟨_, _, Leb128.reads.append counted _,
        readExports_eq_some_iff.2 ⟨rfl, entries, rest, inTurn, rfl⟩⟩
  · rw [Option.some_inj, eq_comm]

theorem exports_eq_some_iff {code : Bytes} {es : List Export} :
    exports code = some es ↔ ∃ sections items, Module sections code ∧
      List.Forall₂ Section.Counts sections items ∧ es = items.flatten := by
  simp only [exports, Option.bind_eq_bind, Option.bind_eq_some_iff,
    List.isPrefixOf?_eq_some_iff_append_eq, mapM_eq_some_iff, readSections_eq_some_iff,
    Section.exports_eq_some_iff]
  constructor
  · rintro ⟨parts, whole, sections, spelled, items, counted, eq⟩
    cases eq
    exact ⟨sections, items, ⟨parts, spelled, whole.symm⟩, counted, rfl⟩
  · rintro ⟨sections, items, ⟨parts, spelled, rfl⟩, counted, rfl⟩
    exact ⟨parts, rfl, sections, spelled, items, counted, rfl⟩

/-- The functions that a code exports are read if and only if the grammar has them. -/
theorem exportedFunctions_eq_some_iff {code : Bytes} {names : TextSet} :
    exportedFunctions code = some names ↔ Exports code names := by
  have named (es : List Export) (name : String) :
      name ∈ (es.filter (·.kind == functionKind)).map Export.name ↔
        ∃ e ∈ es, e.kind = functionKind ∧ e.name = name := by
    simp [and_assoc]
  rw [exportedFunctions, Option.map_eq_some_iff]
  constructor
  · rintro ⟨es, read, rfl⟩
    obtain ⟨sections, items, module, counted, rfl⟩ := exports_eq_some_iff.1 read
    refine ⟨sections, items, module, counted, ?_⟩
    intro name
    rw [TextSet.contains_ofList, named]
  · rintro ⟨sections, items, module, counted, members⟩
    refine ⟨items.flatten, exports_eq_some_iff.2 ⟨sections, items, module, counted, rfl⟩, ?_⟩
    apply TextSet.ext_contains
    intro name
    rw [TextSet.contains_ofList, named, members]

end Wasm

end ContractHost
