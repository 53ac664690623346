import ContractHost.Checksum
import ContractHost.Proofs.Bytes

/-!
Checksums are read back from their hexadecimal form, in whatever spelling: the
digits may be of either case, and there may be blanks around them
(`Checksum.parse_of_spelledBy`). A digit is no blank, so trimming takes the blanks
and nothing else, and every character of the rest stands for one digit.
-/

namespace ContractHost

namespace Hex

/-- The characters are the digits of the bytes, two for each, in lower or upper case. -/
def Spells (cs : List Char) (b : Bytes) : Prop := cs.map Char.toLower = b.flatMap digits

theorem toNat_lt_of_toLower {x : Char} {n : Nat} (small : n < 16) (lower : x.toLower = digit n) :
    x.toNat < 128 := by
  have bound : ∀ n < 16, (digit n).toNat < 128 := by decide
  have low := bound n small
  refine Nat.lt_of_not_le fun high => ?_
  have same : x.toLower = x := by
    refine dif_neg fun upper => ?_
    have most : x.val.toNat ≤ 90 := UInt32.le_iff_toNat_le.1 upper.2
    have least : 128 ≤ x.val.toNat := high
    omega
  rw [← lower, same] at low
  omega

/-- A character that is a digit in lower or upper case is one byte, has the value of the digit, and
is no blank. -/
theorem digit_of_toLower {x : Char} {n : Nat} (small : n < 16) (lower : x.toLower = digit n) :
    String.utf8EncodeChar x = [UInt8.ofNat x.toNat] ∧ value? (UInt8.ofNat x.toNat) = some n ∧
      Text.isBlank x = false := by
  have each : ∀ n < 16, ∀ m < 128, (Char.ofNat m).toLower = digit n →
      String.utf8EncodeChar (Char.ofNat m) = [UInt8.ofNat m] ∧
        value? (UInt8.ofNat m) = some n ∧ Text.isBlank (Char.ofNat m) = false := by
    decide +kernel
  have spelled := each n small x.toNat (toNat_lt_of_toLower small lower)
  rw [Char.ofNat_toNat] at spelled
  exact spelled lower

theorem spells_digits (b : Bytes) : Spells (b.flatMap digits) b := by
  have each : ∀ n < 16, (digit n).toLower = digit n := by decide
  induction b with
  | nil => rfl
  | cons x b ih =>
      have bound := x.toNat_lt
      show List.map Char.toLower (digits x ++ b.flatMap digits) = digits x ++ b.flatMap digits
      rw [List.map_append, ih]
      simp [digits, each (x.toNat / 16) (by omega), each (x.toNat % 16) (by omega)]

namespace Spells

variable {cs : List Char} {b : Bytes}

theorem split {x : UInt8} (spells : Spells cs (x :: b)) :
    ∃ high low rest, cs = high :: low :: rest ∧ high.toLower = digit (x.toNat / 16) ∧
      low.toLower = digit (x.toNat % 16) ∧ Spells rest b := by
  obtain ⟨high, others, rfl, first, spells⟩ := List.map_eq_cons_iff.1 spells
  obtain ⟨low, rest, rfl, second, spells⟩ := List.map_eq_cons_iff.1 spells
  exact ⟨high, low, rest, rfl, first, second, spells⟩

theorem length (spells : Spells cs b) : cs.length = 2 * b.length := by
  induction b generalizing cs with
  | nil =>
      obtain rfl := List.map_eq_nil_iff.1 spells
      rfl
  | cons x b ih =>
      obtain ⟨high, low, rest, rfl, -, -, others⟩ := spells.split
      have rests := ih others
      simp only [List.length_cons]
      omega

theorem not_blank (spells : Spells cs b) {x : Char} (mem : x ∈ cs) : Text.isBlank x = false := by
  have lower : x.toLower ∈ b.flatMap digits := spells ▸ List.mem_map_of_mem mem
  obtain ⟨y, -, digit⟩ := List.mem_flatMap.1 lower
  have bound := y.toNat_lt
  rcases List.mem_cons.1 digit with high | low
  · exact (digit_of_toLower (by omega) high).2.2
  · exact (digit_of_toLower (by omega) (List.mem_singleton.1 low)).2.2

theorem ofText (spells : Spells cs b) :
    Bytes.ofText (String.ofList cs) = cs.map fun x => UInt8.ofNat x.toNat := by
  rw [Bytes.ofText_eq_flatMap, String.toList_ofList]
  induction b generalizing cs with
  | nil =>
      obtain rfl := List.map_eq_nil_iff.1 spells
      rfl
  | cons x b ih =>
      obtain ⟨high, low, rest, rfl, first, second, others⟩ := spells.split
      have bound := x.toNat_lt
      have rests := ih others
      simp only [List.flatMap_cons, (digit_of_toLower (by omega) first).1,
        (digit_of_toLower (by omega) second).1, rests]
      rfl

theorem decodePairs (spells : Spells cs b) (position : Nat) :
    Hex.decodePairs position (cs.map fun x => UInt8.ofNat x.toNat) = .ok b := by
  induction b generalizing cs position with
  | nil =>
      obtain rfl := List.map_eq_nil_iff.1 spells
      rfl
  | cons x b ih =>
      obtain ⟨high, low, rest, rfl, first, second, others⟩ := spells.split
      have bound := x.toNat_lt
      have whole : 16 * (x.toNat / 16) + x.toNat % 16 = x.toNat := Nat.div_add_mod _ _
      simp only [List.map_cons, Hex.decodePairs, (digit_of_toLower (by omega) first).2.1,
        (digit_of_toLower (by omega) second).2.1, ih others, whole, UInt8.ofNat_toNat]

theorem decode (spells : Spells cs b) :
    Hex.decode (Bytes.ofText (String.ofList cs)) = .ok b := by
  have even : ¬ (cs.map fun x => UInt8.ofNat x.toNat).length % 2 = 1 := by
    rw [List.length_map, spells.length]
    omega
  rw [spells.ofText, Hex.decode, if_neg even, spells.decodePairs]

theorem trim (spells : Spells cs b) (filled : b ≠ []) {pre post : List Char}
    (blank : ∀ x ∈ pre ++ post, Text.isBlank x = true) :
    Text.trimBlanks (pre ++ cs ++ post) = cs := by
  have plain (x : Char) (mem : x ∈ cs) : (!Text.isBlank x) = true := by
    rw [spells.not_blank mem]
    rfl
  refine Text.trimBlanks_padded (fun x mem => blank x (List.mem_append_left _ mem))
    (fun x mem => blank x (List.mem_append_right _ mem)) ?_
    ((Option.all_eq_true _ _).2 fun x first => plain x (List.mem_of_mem_head? first))
    ((Option.all_eq_true _ _).2 fun x last => plain x (List.mem_of_getLast? last))
  rintro rfl
  have some := List.length_pos_iff.2 filled
  have none := spells.length
  rw [List.length_nil] at none
  omega

end Spells

theorem length_ofText_encode (b : Bytes) : (Bytes.ofText (encode b)).length = 2 * b.length := by
  rw [encode, (spells_digits b).ofText, List.length_map, (spells_digits b).length]

end Hex

namespace Checksum

def SpelledBy (c : Checksum) (text : String) : Prop :=
  ∃ pre digits post, text.toList = pre ++ digits ++ post ∧
    (∀ x ∈ pre ++ post, Text.isBlank x = true) ∧ digits.map Char.toLower = c.toHex.toList

/-- A checksum is read from every text that spells it. -/
theorem parse_of_spelledBy {c : Checksum} {text : String} (spelled : c.SpelledBy text) :
    parse text = .ok c := by
  obtain ⟨pre, digits, post, chars, blank, lower⟩ := spelled
  have spells : Hex.Spells digits c.digest := by
    rw [toHex, Hex.encode, String.toList_ofList] at lower
    exact lower
  have filled : c.digest ≠ [] := List.ne_nil_of_length_eq_add_one c.size
  rw [parse, Text.trim, chars, spells.trim filled blank, spells.decode]
  exact dif_pos c.size

theorem spelledBy_toHex (c : Checksum) : c.SpelledBy c.toHex := by
  refine ⟨[], c.toHex.toList, [], by simp, by simp, ?_⟩
  rw [toHex, Hex.encode, String.toList_ofList]
  exact Hex.spells_digits c.digest

theorem parse_toHex (c : Checksum) : parse c.toHex = .ok c := parse_of_spelledBy c.spelledBy_toHex

theorem toHex_injective {a b : Checksum} (same : a.toHex = b.toHex) : a = b := by
  have parsed := parse_toHex a
  rw [same, parse_toHex] at parsed
  exact (Except.ok.inj parsed).symm

end Checksum

end ContractHost
