import ContractHost.Json.Text
import ContractHost.Proofs.Bytes

/-!
The byte forms of code points. Bytes begin with the form of one code point at most
(`codePointBytes_append_inj`), and the forms ascend as the code points do, so texts ascend as their
bytes do (`ofText_lt_ofText_iff`).
-/

namespace ContractHost.Json

variable {n m : Nat}

def codePointAt (b : Bytes) : Nat :=
  let byte (i : Nat) := (b.getD i 0).toNat
  if byte 0 < 0x80 then byte 0
  else if byte 0 < 0xE0 then (byte 0 - 0xC0) * 64 + (byte 1 - 0x80)
  else if byte 0 < 0xF0 then
    (byte 0 - 0xE0) * 4096 + (byte 1 - 0x80) * 64 + (byte 2 - 0x80)
  else (byte 0 - 0xF0) * 262144 + (byte 1 - 0x80) * 4096 + (byte 2 - 0x80) * 64 + (byte 3 - 0x80)

theorem codePointAt_append (small : n < 0x110000) (rest : Bytes) :
    codePointAt (codePointBytes n ++ rest) = n := by
  have toNat (x : Nat) : (UInt8.ofNat x).toNat = x % 256 := UInt8.toNat_ofNat'
  unfold codePointBytes codePointAt
  split
  · simp only [List.cons_append, List.getD_cons_zero, toNat]
    rw [if_pos (by omega)]
    omega
  split
  · simp only [List.cons_append, List.getD_cons_zero, List.getD_cons_succ, toNat]
    rw [if_neg (by omega), if_pos (by omega)]
    omega
  split
  · simp only [List.cons_append, List.getD_cons_zero, List.getD_cons_succ, toNat]
    rw [if_neg (by omega), if_neg (by omega), if_pos (by omega)]
    omega
  · simp only [List.cons_append, List.getD_cons_zero, List.getD_cons_succ, toNat]
    rw [if_neg (by omega), if_neg (by omega), if_neg (by omega)]
    omega

/-- Bytes begin with the form of one code point at most. -/
theorem codePointBytes_append_inj (smallLeft : n < 0x110000) (smallRight : m < 0x110000)
    {x y : Bytes} (same : codePointBytes n ++ x = codePointBytes m ++ y) : n = m ∧ x = y := by
  obtain rfl : n = m := by
    rw [← codePointAt_append smallLeft x, same, codePointAt_append smallRight]
  exact ⟨rfl, List.append_cancel_left same⟩

/-- A byte with which no code point starts. -/
def Continues (b : UInt8) : Prop := 0x80 ≤ b.toNat ∧ b.toNat < 0xC0

/-- A code point below 0x80 is one byte. Another one starts with a byte from 0xC0 on, and goes on
with bytes with which none starts. -/
theorem codePointBytes_cases (small : n < 0x110000) :
    n < 0x80 ∧ codePointBytes n = [UInt8.ofNat n] ∨
      0x80 ≤ n ∧ ∃ b rest, codePointBytes n = b :: rest ∧ 0xC0 ≤ b.toNat ∧
        ∀ x ∈ rest, Continues x := by
  have toNat (x : Nat) : (UInt8.ofNat x).toNat = x % 256 := UInt8.toNat_ofNat'
  have continues (k : Nat) : Continues (UInt8.ofNat (0x80 + k % 64)) := by
    rw [Continues, toNat]
    omega
  unfold codePointBytes
  split
  · next low => exact .inl ⟨low, rfl⟩
  next high =>
  refine .inr ⟨Nat.not_lt.1 high, ?_⟩
  split
  · refine ⟨_, _, rfl, ?_, List.forall_mem_singleton.2 (continues n)⟩
    rw [toNat]
    omega
  split
  · refine ⟨_, _, rfl, ?_, List.forall_mem_cons.2 ⟨continues _, List.forall_mem_singleton.2
      (continues n)⟩⟩
    rw [toNat]
    omega
  · refine ⟨_, _, rfl, ?_, List.forall_mem_cons.2 ⟨continues _, List.forall_mem_cons.2
      ⟨continues _, List.forall_mem_singleton.2 (continues n)⟩⟩⟩
    rw [toNat]
    omega

theorem toNat_char (c : Char) : c.toNat < 0xD800 ∨ 0xDFFF < c.toNat ∧ c.toNat < 0x110000 := c.valid

theorem toNat_char_lt (c : Char) : c.toNat < 0x110000 := by
  have valid := toNat_char c
  omega

theorem utf8EncodeChar_eq (c : Char) : String.utf8EncodeChar c = codePointBytes c.toNat := by
  have small := toNat_char c
  have form : String.utf8EncodeChar c =
      if c.toNat ≤ 127 then [UInt8.ofNat c.toNat]
      else if c.toNat ≤ 2047 then
        [UInt8.ofNat (c.toNat / 64 % 32 + 192), UInt8.ofNat (c.toNat % 64 + 128)]
      else if c.toNat ≤ 65535 then
        [UInt8.ofNat (c.toNat / 4096 % 16 + 224), UInt8.ofNat (c.toNat / 64 % 64 + 128),
          UInt8.ofNat (c.toNat % 64 + 128)]
      else
        [UInt8.ofNat (c.toNat / 262144 % 8 + 240), UInt8.ofNat (c.toNat / 4096 % 64 + 128),
          UInt8.ofNat (c.toNat / 64 % 64 + 128), UInt8.ofNat (c.toNat % 64 + 128)] := rfl
  rw [form, codePointBytes]
  split
  · rw [if_pos (by omega)]
  split
  · rw [if_neg (by omega), if_pos (by omega), Nat.mod_eq_of_lt (by omega : c.toNat / 64 < 32),
      Nat.add_comm, Nat.add_comm 0x80]
  split
  · rw [if_neg (by omega), if_neg (by omega), if_pos (by omega),
      Nat.mod_eq_of_lt (by omega : c.toNat / 4096 < 16), Nat.add_comm, Nat.add_comm _ 128,
      Nat.add_comm _ 128]
  · rw [if_neg (by omega), if_neg (by omega), if_neg (by omega),
      Nat.mod_eq_of_lt (by omega : c.toNat / 262144 < 8), Nat.add_comm, Nat.add_comm _ 128,
      Nat.add_comm _ 128, Nat.add_comm _ 128]

/-- The forms of code points ascend as they do, whatever follows them. -/
theorem codePointBytes_lt (less : n < m) (small : m < 0x110000) (x y : Bytes) :
    codePointBytes n ++ x < codePointBytes m ++ y := by
  have lt (x y : Nat) : UInt8.ofNat x < UInt8.ofNat y ↔ x % 256 < y % 256 := by
    rw [UInt8.lt_iff_toNat_lt, UInt8.toNat_ofNat', UInt8.toNat_ofNat']
  have eq (x y : Nat) : UInt8.ofNat x = UInt8.ofNat y ↔ x % 256 = y % 256 := by
    rw [← UInt8.toNat_inj, UInt8.toNat_ofNat', UInt8.toNat_ofNat']
  have digits (k : Nat) :
      k = k / 262144 * 262144 + k / 4096 % 64 * 4096 + k / 64 % 64 * 64 + k % 64 := by omega
  have left := digits n
  have right := digits m
  -- forms of two lengths differ in the first byte, forms of one length in the first digit that does
  unfold codePointBytes
  repeat' split
  all_goals
    simp only [List.cons_append, List.nil_append, List.cons_lt_cons_iff, lt, eq]
    simp (disch := omega) only [Nat.mod_eq_of_lt]
    omega

theorem ofText_lt_ofText {a b : String} (less : a < b) : Bytes.ofText a < Bytes.ofText b := by
  rw [String.lt_iff] at less
  rw [Bytes.ofText_eq_flatMap, Bytes.ofText_eq_flatMap]
  generalize a.toList = cs at less
  generalize b.toList = ds at less
  induction cs generalizing ds with
  | nil =>
      cases ds with
      | nil => cases less
      | cons d ds =>
          have filled : String.utf8EncodeChar d ≠ [] := String.utf8EncodeChar_ne_nil
          obtain ⟨x, rest, first⟩ := List.exists_cons_of_ne_nil filled
          rw [List.flatMap_cons, first]
          exact List.nil_lt_cons _ _
  | cons c cs ih =>
      cases ds with
      | nil => cases less
      | cons d ds =>
          rw [List.flatMap_cons, List.flatMap_cons]
          rcases List.cons_lt_cons_iff.1 less with first | ⟨rfl, others⟩
          · rw [utf8EncodeChar_eq, utf8EncodeChar_eq]
            exact codePointBytes_lt first (toNat_char_lt d) _ _
          · exact List.append_left_lt (ih ds others)

theorem ofText_lt_ofText_iff {a b : String} : Bytes.ofText a < Bytes.ofText b ↔ a < b := by
  refine ⟨fun less => ?_, ofText_lt_ofText⟩
  refine Classical.byContradiction fun above => ?_
  have le := String.not_lt.1 above
  by_cases same : b < a
  · exact List.lt_asymm less (ofText_lt_ofText same)
  · rw [String.le_antisymm (String.not_lt.1 same) le] at less
    exact List.lt_irrefl _ less

end ContractHost.Json
