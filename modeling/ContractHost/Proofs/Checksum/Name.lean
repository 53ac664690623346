import ContractHost.CodeStore.Basic
import ContractHost.Proofs.Checksum

/-!
The text of a checksum is a faithful name of it (`Checksum.faithful_name`).

What hexadecimal text is read as is exactly what it spells (`Hex.decode_eq_ok_iff`), so
a text is read as a checksum only if its 64 digits are there and nothing but blanks
around them. The digits of a byte are ordered as the byte is (`Hex.pair_lt_iff`), and
with them the texts of checksums, so that the entries of a code store stand in the order
of their checksums.
-/

namespace ContractHost

namespace Bytes

theorem compare_eq_lt_iff {a b : Bytes} : compare a b = .lt ↔ a < b := by
  have lex (a b : Bytes) : compare a b = List.compareLex compare a b := rfl
  induction a generalizing b with
  | nil => cases b <;> simp [lex, List.compareLex_nil_cons]
  | cons x a ih =>
      cases b with
      | nil => simp [lex, List.compareLex_cons_nil]
      | cons y b =>
          rw [lex, List.compareLex_cons_cons, Ordering.then_eq_lt, Std.compare_eq_lt,
            Std.compare_eq_iff_eq, List.cons_lt_cons_iff]
          exact or_congr_right (and_congr_right fun _ => ih)

end Bytes

namespace Text

/-- Characters without the blanks at both of their ends. -/
structure Trimmed (cs core : List Char) : Prop where
  cut : ∃ pre post, cs = pre ++ core ++ post ∧ ∀ x ∈ pre ++ post, isBlank x = true
  first : ∀ x ∈ core.head?, isBlank x = false
  last : ∀ x ∈ core.getLast?, isBlank x = false

theorem not_blank_head?_dropWhile (cs : List Char) :
    ∀ x ∈ (cs.dropWhile isBlank).head?, isBlank x = false := by
  intro x first
  have stop := List.head?_dropWhile_not isBlank cs
  rw [Option.mem_def.1 first] at stop
  exact stop

theorem blank_of_mem_takeWhile {cs : List Char} : ∀ x ∈ cs.takeWhile isBlank, isBlank x = true :=
  List.all_eq_true.1 (List.all_takeWhile ..)

theorem trimmed_trimBlanks (cs : List Char) : Trimmed cs (trimBlanks cs) := by
  let back := (cs.dropWhile isBlank).reverse
  have start : cs.dropWhile isBlank = trimBlanks cs ++ (back.takeWhile isBlank).reverse := by
    rw [trimBlanks, ← List.reverse_append, List.takeWhile_append_dropWhile, List.reverse_reverse]
  refine ⟨⟨cs.takeWhile isBlank, (back.takeWhile isBlank).reverse, ?_, fun x mem => ?_⟩,
    fun x first => ?_, fun x last => ?_⟩
  · rw [List.append_assoc, ← start, List.takeWhile_append_dropWhile]
  · rcases List.mem_append.1 mem with mem | mem
    · exact blank_of_mem_takeWhile x mem
    · exact blank_of_mem_takeWhile x (List.mem_reverse.1 mem)
  · -- what is trimmed at the end does not change how the text begins
    refine not_blank_head?_dropWhile cs x ?_
    rw [start, List.head?_append, Option.mem_def.1 first]
    rfl
  · rw [trimBlanks, List.getLast?_reverse] at last
    exact not_blank_head?_dropWhile back x last

end Text

namespace Hex

def IsDigit (x : Char) : Prop := x ∈ "0123456789abcdefABCDEF".toList

instance : DecidablePred IsDigit := fun x => inferInstanceAs (Decidable (x ∈ _))

theorem isDigit_iff {x : Char} : IsDigit x ↔ ∃ n < 16, x.toLower = digit n := by
  constructor
  · intro known
    have each : ("0123456789abcdefABCDEF".toList.all fun x =>
        ((List.range 16).map digit).contains x.toLower) = true := by
      decide
    have mem : x.toLower ∈ (List.range 16).map digit :=
      List.contains_iff_mem.1 (List.all_eq_true.1 each x known)
    obtain ⟨n, small, lower⟩ := List.mem_map.1 mem
    exact ⟨n, List.mem_range.1 small, lower.symm⟩
  · rintro ⟨n, small, lower⟩
    have each : ∀ n < 16, ∀ m < 128, (Char.ofNat m).toLower = digit n → IsDigit (Char.ofNat m) := by
      decide +kernel
    have known := each n small x.toNat (toNat_lt_of_toLower small lower)
    rw [Char.ofNat_toNat] at known
    exact known lower

theorem digit_of_value? {c : UInt8} {n : Nat} (value : value? c = some n) :
    n < 16 ∧ String.utf8EncodeChar (Char.ofNat c.toNat) = [c] ∧
      (Char.ofNat c.toNat).toLower = digit n := by
  have each : ∀ m < 256, ∀ n ∈ value? (UInt8.ofNat m),
      n < 16 ∧ String.utf8EncodeChar (Char.ofNat m) = [UInt8.ofNat m] ∧
        (Char.ofNat m).toLower = digit n := by
    decide +kernel
  have known := each c.toNat c.toNat_lt n
  rw [UInt8.ofNat_toNat] at known
  exact known value

def chars (text : Bytes) : List Char := text.map fun c => Char.ofNat c.toNat

theorem Spells.cons {high low : Char} {rest : List Char} {b : Bytes} {hv lv : Nat} (small : hv < 16)
    (small' : lv < 16) (first : high.toLower = digit hv) (second : low.toLower = digit lv)
    (others : Spells rest b) :
    Spells (high :: low :: rest) (UInt8.ofNat (16 * hv + lv) :: b) := by
  have fits : 16 * hv + lv < 256 := by omega
  have whole : (UInt8.ofNat (16 * hv + lv)).toNat = 16 * hv + lv := UInt8.toNat_ofNat_of_lt' fits
  have front : (16 * hv + lv) / 16 = hv := by omega
  have back : (16 * hv + lv) % 16 = lv := by omega
  show high.toLower :: low.toLower :: rest.map Char.toLower =
    digits (UInt8.ofNat (16 * hv + lv)) ++ b.flatMap digits
  rw [others, digits, whole, front, back, first, second]
  rfl

/-- Pairs of digits that are read spell what they are read as. -/
theorem spells_of_decodePairs {text b : Bytes} {position : Nat} (even : text.length % 2 = 0)
    (read : decodePairs position text = .ok b) :
    Spells (chars text) b ∧ (chars text).flatMap String.utf8EncodeChar = text := by
  fun_induction decodePairs position text generalizing b with
  | case1 | case2 | case3 => cases read
  | case4 position h l rest hv high lv low r others ih =>
      cases read
      rw [List.length_cons, List.length_cons] at even
      obtain ⟨spells, bytes⟩ := ih (by omega) others
      obtain ⟨small, one, lower⟩ := digit_of_value? high
      obtain ⟨small', one', lower'⟩ := digit_of_value? low
      refine ⟨spells.cons small small' lower lower', ?_⟩
      simp only [chars, List.map_cons, List.flatMap_cons, one, one'] at bytes ⊢
      rw [bytes]
      rfl
  | case5 text position short =>
      cases read
      rcases text with _ | ⟨h, _ | ⟨l, rest⟩⟩
      · exact ⟨rfl, rfl⟩
      · cases even
      · exact absurd rfl (short h l rest)

/-- Exactly the texts that spell bytes are read as these bytes. -/
theorem decode_eq_ok_iff {text : String} {b : Bytes} :
    decode (Bytes.ofText text) = .ok b ↔ Spells text.toList b := by
  constructor
  · intro read
    rw [decode] at read
    split at read
    · cases read
    · next even =>
      obtain ⟨spells, bytes⟩ := spells_of_decodePairs (by omega) read
      have same : text = String.ofList (chars (Bytes.ofText text)) := by
        refine Bytes.ofText_injective ?_
        rw [Bytes.ofText_eq_flatMap (String.ofList _), String.toList_ofList, bytes]
      rw [same, String.toList_ofList]
      exact spells
  · intro spells
    have read := spells.decode
    rwa [String.ofList_toList] at read

theorem exists_spells {n : Nat} {cs : List Char} (length : cs.length = 2 * n)
    (digits : ∀ x ∈ cs, IsDigit x) : ∃ b, Spells cs b ∧ b.length = n := by
  induction n generalizing cs with
  | zero =>
      obtain rfl := List.length_eq_zero_iff.1 length
      exact ⟨[], rfl, rfl⟩
  | succ n ih =>
      obtain ⟨high, low, rest, rfl⟩ : ∃ high low rest, cs = high :: low :: rest := by
        rcases cs with _ | ⟨high, _ | ⟨low, rest⟩⟩
        · cases length
        · simp only [List.length_cons, List.length_nil] at length
          omega
        · exact ⟨high, low, rest, rfl⟩
      obtain ⟨first, second, others⟩ :
          IsDigit high ∧ IsDigit low ∧ ∀ x ∈ rest, IsDigit x := by
        simpa only [List.forall_mem_cons] using digits
      obtain ⟨b, spells, size⟩ := ih (by simpa [Nat.mul_succ] using length) others
      obtain ⟨hv, small, lower⟩ := isDigit_iff.1 first
      obtain ⟨lv, small', lower'⟩ := isDigit_iff.1 second
      exact ⟨UInt8.ofNat (16 * hv + lv) :: b, spells.cons small small' lower lower',
        congrArg (· + 1) size⟩

theorem Spells.isDigit {cs : List Char} {b : Bytes} (spells : Spells cs b) {x : Char}
    (mem : x ∈ cs) : IsDigit x := by
  have lower : x.toLower ∈ b.flatMap digits := spells ▸ List.mem_map_of_mem mem
  obtain ⟨y, -, digit⟩ := List.mem_flatMap.1 lower
  have bound := y.toNat_lt
  rcases List.mem_cons.1 digit with high | low
  · exact isDigit_iff.2 ⟨_, by omega, high⟩
  · exact isDigit_iff.2 ⟨_, by omega, List.mem_singleton.1 low⟩

def digitByte (n : Nat) : UInt8 := UInt8.ofNat (digit n).toNat

theorem digitByte_order : ∀ n < 16, ∀ m < 16,
    (digitByte n < digitByte m ↔ n < m) ∧ (digitByte n = digitByte m ↔ n = m) := by
  decide

theorem ofText_encode_cons (x : UInt8) (b : Bytes) : Bytes.ofText (encode (x :: b)) =
    digitByte (x.toNat / 16) :: digitByte (x.toNat % 16) :: Bytes.ofText (encode b) := by
  rw [encode, encode, (spells_digits _).ofText, (spells_digits b).ofText]
  rfl

theorem pair_lt_iff {x y : UInt8} {a b : Bytes} :
    (digitByte (x.toNat / 16) :: digitByte (x.toNat % 16) :: a <
      digitByte (y.toNat / 16) :: digitByte (y.toNat % 16) :: b) ↔ x < y ∨ x = y ∧ a < b := by
  have bound := x.toNat_lt
  have bound' := y.toNat_lt
  have high := digitByte_order (x.toNat / 16) (by omega) (y.toNat / 16) (by omega)
  have low := digitByte_order (x.toNat % 16) (by omega) (y.toNat % 16) (by omega)
  rw [List.cons_lt_cons_iff, List.cons_lt_cons_iff, high.1, high.2, low.1, low.2,
    UInt8.lt_iff_toNat_lt, ← UInt8.toNat_inj]
  by_cases rest : a < b
  · simp only [rest, and_true]
    omega
  · simp only [rest, and_false, or_false]
    omega

/-- Hexadecimal texts are ordered as the bytes are that they write. -/
theorem ofText_encode_lt_iff {a b : Bytes} :
    Bytes.ofText (encode a) < Bytes.ofText (encode b) ↔ a < b := by
  induction a generalizing b with
  | nil =>
      cases b with
      | nil => exact iff_of_false (List.lt_irrefl _) (List.lt_irrefl _)
      | cons y b =>
          rw [ofText_encode_cons]
          exact iff_of_true (List.nil_lt_cons ..) (List.nil_lt_cons ..)
  | cons x a ih =>
      cases b with
      | nil => exact iff_of_false (List.not_lt_nil _) (List.not_lt_nil _)
      | cons y b =>
          rw [ofText_encode_cons, ofText_encode_cons, pair_lt_iff, ih, List.cons_lt_cons_iff]

end Hex

namespace Checksum

variable {c : Checksum} {text : String}

theorem parse_eq_ok_iff :
    parse text = .ok c ↔ Hex.Spells (Text.trim text).toList c.digest := by
  rw [← Hex.decode_eq_ok_iff, parse]
  constructor
  · intro read
    split at read
    · cases read
    · next b decoded =>
      rw [ofBytes] at read
      split at read
      · cases read
        exact decoded
      · cases read
  · intro decoded
    rw [decoded]
    exact dif_pos c.size

/-- What a text is read as, if it is read as a checksum. -/
structure Legible (text : String) : Prop where
  /-- Blanks around a text do not count, and no more is left aside. -/
  trimmed : Text.Trimmed text.toList (Text.trim text).toList
  /-- The rest has to be 64 hexadecimal digits, in any mixture of cases. -/
  parses_iff : (∃ c, parse text = .ok c) ↔
    (Text.trim text).length = 64 ∧ ∀ x ∈ (Text.trim text).toList, Hex.IsDigit x
  /-- In lower case they are the text of the checksum. -/
  toHex_eq {c : Checksum} : parse text = .ok c → c.toHex = (Text.trim text).toLower

theorem legible (text : String) : Legible text := by
  refine ⟨?_, ⟨?_, ?_⟩, fun read => ?_⟩
  · rw [Text.trim, String.toList_ofList]
    exact Text.trimmed_trimBlanks text.toList
  · rintro ⟨c, read⟩
    have spells := parse_eq_ok_iff.1 read
    have length := spells.length
    rw [c.size, String.length_toList] at length
    exact ⟨length, fun x mem => spells.isDigit mem⟩
  · rintro ⟨length, digits⟩
    obtain ⟨b, spells, size⟩ := Hex.exists_spells (n := 32) length digits
    exact ⟨⟨b, size⟩, parse_eq_ok_iff.2 spells⟩
  · have spells := parse_eq_ok_iff.1 read
    show toHex _ = (Text.trim text).map Char.toLower
    rw [toHex, Hex.encode, ← spells, ← String.toList_map, String.ofList_toList]

theorem lt_iff_toHex_lt {a b : Checksum} :
    compare a b = .lt ↔ Bytes.ofText a.toHex < Bytes.ofText b.toHex := by
  rw [toHex, toHex, Hex.ofText_encode_lt_iff]
  exact Bytes.compare_eq_lt_iff

def dirName (c : Checksum) : Bytes := Bytes.ofText c.toHex

/-- Sorting checksums is sorting the names of their directories. -/
theorem map_sort (l : List Checksum) :
    (sort l).map dirName = (l.map dirName).mergeSort fun a b => decide (a ≤ b) := by
  refine List.map_mergeSort fun a _ b _ => ?_
  have least : (compare a b).isLE ↔ dirName a ≤ dirName b := by
    rw [← List.not_lt, dirName, dirName, ← lt_iff_toHex_lt, Std.OrientedOrd.eq_swap (a := b)]
    cases compare a b <;> decide
  rw [Bool.eq_iff_iff, decide_eq_true_iff]
  exact least

/-- The text of a checksum is a faithful name of it. A text is read as a checksum exactly if it is
64 hexadecimal digits without the blanks around it, and these are the text of the checksum in any
mixture of cases; every checksum is read back from its text, whatever the case of the digits and
whatever blanks stand around them. The texts are ordered as the checksums are, and so are the
directories of a code store, which are named by them. -/
theorem faithful_name :
    (∀ text, Legible text) ∧
    (∀ c, parse c.toHex = .ok c ∧ ∀ text, c.SpelledBy text → parse text = .ok c) ∧
    (∀ a b : Checksum, compare a b = .lt ↔ Bytes.ofText a.toHex < Bytes.ofText b.toHex) ∧
    (∀ l, (sort l).map dirName = (l.map dirName).mergeSort fun a b => decide (a ≤ b)) ∧
    ∀ (s : CodeStore) (c : Checksum),
      (s.codeDir c).components = s.root.components ++ [c.dirName] := by
  refine ⟨legible, fun c => ⟨parse_toHex c, fun _ => parse_of_spelledBy⟩,
    fun _ _ => lt_iff_toHex_lt, map_sort, fun s c => ?_⟩
  simp [CodeStore.codeDir, Path.child, Path.components, dirName]

/-- Blanks of any kind may stand around the digits, which may be of either case. -/
example : (parse ("\u3000\t" ++ "aB".pushn 'f' 62 ++ "\u0085")).toOption.map toHex =
    some ("ab".pushn 'f' 62) := by decide +kernel

end Checksum

end ContractHost
