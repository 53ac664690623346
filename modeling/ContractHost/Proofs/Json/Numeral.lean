import ContractHost.Json.Tree
import ContractHost.Json.Writer
import Mathlib.Algebra.Group.Nat.Defs
import Mathlib.Data.List.Basic
import Mathlib.Data.List.TakeWhile

/-!
Integers written in decimal digits are read back as numerals, and those of 64 bits
have the value that was written.
-/

namespace ContractHost.Json

namespace Numeral

def digitsOf (n : Nat) : List Nat := (Nat.toDigits 10 n).map fun c => c.toNat - 48

def ofInt (i : Int) : Numeral := ⟨decide (i < 0), digitsOf i.natAbs, none, none⟩

theorem digit?_of_isDigit {c : Char} (digit : c.isDigit = true) :
    digit? (UInt8.ofNat c.toNat) = some (c.toNat - 48) := by
  obtain ⟨low, high⟩ : 48 ≤ c.toNat ∧ c.toNat ≤ 57 := by
    simpa [Char.isDigit, UInt32.le_iff_toNat_le] using digit
  have byte : (UInt8.ofNat c.toNat).toNat = c.toNat :=
    UInt8.toNat_ofNat_of_lt' (Nat.lt_of_le_of_lt high (by decide))
  have within : 0x30 ≤ UInt8.ofNat c.toNat ∧ UInt8.ofNat c.toNat ≤ 0x39 := by
    rw [UInt8.le_iff_toNat_le, UInt8.le_iff_toNat_le, byte]
    exact ⟨low, high⟩
  rw [digit?, if_pos within, byte]

theorem digit?_of_mem {n : Nat} {b : UInt8} (mem : b ∈ writeNat n) : (digit? b).isSome := by
  obtain ⟨c, digit, rfl⟩ := List.mem_map.1 mem
  rw [digit?_of_isDigit (Nat.isDigit_of_mem_toDigits (by decide) (by decide) digit)]
  rfl

theorem takeDigits_writeNat (n : Nat) : takeDigits (writeNat n) = (digitsOf n, []) := by
  have all : (writeNat n).takeWhile (fun b => (digit? b).isSome) = writeNat n :=
    List.takeWhile_eq_self_iff.2 fun b mem => digit?_of_mem mem
  have values : (writeNat n).filterMap digit? = digitsOf n := by
    simp only [writeNat, codes, digitsOf, List.filterMap_map]
    rw [← List.filterMap_eq_map]
    refine List.filterMap_congr fun c digit => ?_
    exact digit?_of_isDigit (Nat.isDigit_of_mem_toDigits (by decide) (by decide) digit)
  simp [takeDigits, all, values]

theorem digitsOf_ne_nil (n : Nat) : digitsOf n ≠ [] := by
  simp [digitsOf, Nat.toDigits_ne_nil]

theorem digitsOf_of_lt {n : Nat} (small : n < 10) : digitsOf n = [n] := by
  have digit : ∀ n < 10, n.digitChar.toNat - 48 = n := by decide
  simp [digitsOf, Nat.toDigits_of_lt_base small, digit n small]

theorem head?_digitsOf {n : Nat} (pos : 0 < n) : (digitsOf n).head? ≠ some 0 := by
  induction n using Nat.strongRecOn with
  | ind n ih =>
      by_cases small : n < 10
      · rw [digitsOf_of_lt small, List.head?_cons, ne_eq, Option.some_inj]
        omega
      · have first := ih (n / 10) (by omega) (by omega)
        have split : digitsOf n = digitsOf (n / 10) ++ [((n % 10).digitChar).toNat - 48] := by
          rw [digitsOf, Nat.toDigits_of_base_le (by decide) (Nat.not_lt.1 small), List.map_append]
          rfl
        obtain ⟨d, rest, digits⟩ := List.exists_cons_of_ne_nil (digitsOf_ne_nil (n / 10))
        rw [split, digits]
        rwa [digits] at first

theorem ofDigits_digitsOf (n : Nat) : ofDigits (digitsOf n) = n := by
  have value := Nat.ofDigitChars_ten_toDigits (n := n)
  rw [Nat.ofDigitChars_eq_foldl] at value
  rw [ofDigits, digitsOf, List.foldl_map]
  simpa [Nat.mul_comm] using value

theorem digitsOf_ne_zero_cons (n d : Nat) (rest : List Nat) : digitsOf n ≠ 0 :: d :: rest := by
  intro zero
  rcases Nat.eq_zero_or_pos n with rfl | pos
  · rw [digitsOf_of_lt (by decide)] at zero
    cases zero
  · exact head?_digitsOf pos (congrArg List.head? zero)

theorem writeNat_ne_minus (n : Nat) (rest : Bytes) : writeNat n ≠ 0x2D :: rest := by
  intro eq
  have digit := digit?_of_mem (n := n) (b := 0x2D) (eq ▸ List.mem_cons_self)
  exact absurd digit (by decide)

theorem read_writeInt (i : Int) : read (writeInt i) = some (ofInt i) := by
  -- without a sign, the match on a sign falls through
  have unsigned := writeNat_ne_minus i.natAbs
  have digits := takeDigits_writeNat i.natAbs
  by_cases neg : i < 0
  all_goals
    simp only [writeInt, neg, if_true, if_false, read, digits, ofInt, decide_true, decide_false]
    split
    · exact absurd ‹_› (digitsOf_ne_nil _)
    · exact absurd ‹_› (digitsOf_ne_zero_cons _ _ _)
    · rfl

theorem value?_ofInt {n : Nat} (word : n < 2 ^ 64) : (ofInt n).value? = some (.int n) := by
  have positive : decide ((n : Int) < 0) = false := decide_eq_false (by omega)
  have whole : ofDigits (digitsOf (n : Int).natAbs) < 18446744073709551616 := by
    rw [ofDigits_digitsOf]
    exact word
  simp only [value?, ofInt, positive, whole]
  simp [ofDigits_digitsOf]

end Numeral

end ContractHost.Json
