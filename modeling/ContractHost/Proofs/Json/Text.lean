import ContractHost.Json.Text
import ContractHost.Json.Writer

/-!
A text written as a JSON string is read back from the contents of the string. What
is written for a byte is one piece of the contents, and that piece stands for the
byte again.
-/

namespace ContractHost.Json

def escaped (s : String) : Bytes := (Bytes.ofText s).flatMap escapeByte

def NeedsEscape (b : UInt8) : Prop := b = 0x22 ∨ b = 0x5C ∨ b < 0x20

instance (b : UInt8) : Decidable (NeedsEscape b) := inferInstanceAs (Decidable (_ ∨ _ ∨ _))

theorem NeedsEscape.toNat_lt {b : UInt8} (escape : NeedsEscape b) : b.toNat < 0x5D := by
  rcases escape with rfl | rfl | control
  · decide
  · decide
  · exact Nat.lt_trans (UInt8.lt_iff_toNat_lt.1 control) (by decide)

theorem escapeByte_of_plain {b : UInt8} (plain : ¬ NeedsEscape b) : escapeByte b = [b] := by
  simp only [NeedsEscape, not_or] at plain
  obtain ⟨quote, backslash, control⟩ := plain
  have letter : ∀ c : UInt8, c < 0x20 → b ≠ c := by
    rintro c low rfl
    exact control low
  simp [escapeByte, quote, backslash, control, letter 0x08 (by decide), letter 0x09 (by decide),
    letter 0x0A (by decide), letter 0x0C (by decide), letter 0x0D (by decide)]

theorem escapeByte_of_escape {b : UInt8} (escape : NeedsEscape b) :
    ∃ c digits, escapeByte b = 0x5C :: c :: digits ∧ ∀ x ∈ digits, x ≠ 0x22 ∧ x ≠ 0x5C := by
  have each : ∀ n < 0x5D, NeedsEscape (UInt8.ofNat n) →
      (escapeByte (UInt8.ofNat n)).take 1 = [0x5C] ∧ 2 ≤ (escapeByte (UInt8.ofNat n)).length ∧
        ∀ x ∈ (escapeByte (UInt8.ofNat n)).drop 2, x ≠ 0x22 ∧ x ≠ 0x5C := by decide +kernel
  have shape := each b.toNat escape.toNat_lt
  rw [UInt8.ofNat_toNat] at shape
  match escapeByte b, shape escape with
  | e :: c :: digits, ⟨backslash, _, rest⟩ =>
    obtain rfl : e = 0x5C := (List.cons.inj backslash).1
    exact ⟨c, digits, rfl, rest⟩

/-- The escape of a control character without a letter of its own gives its number. -/
theorem hexUnit?_digits {b : UInt8} (control : b < 0x20) :
    ∃ h l, codes (Hex.digits b) = [h, l] ∧ hexUnit? 0x30 0x30 h l = some b.toNat := by
  have each : ∀ n < 32, hexUnit? 0x30 0x30 (UInt8.ofNat (Hex.digit (n / 16)).toNat)
      (UInt8.ofNat (Hex.digit (n % 16)).toNat) = some n := by decide
  exact ⟨_, _, rfl, each b.toNat (UInt8.lt_iff_toNat_lt.1 control)⟩

def pieceOf (b : UInt8) : Piece := if NeedsEscape b then .unit b.toNat else .plain b

theorem piecesInto_escapeByte (found : List Piece) (b : UInt8) (rest : Bytes) :
    piecesInto found (escapeByte b ++ rest) = piecesInto (pieceOf b :: found) rest := by
  by_cases escape : NeedsEscape b
  · rw [pieceOf, if_pos escape]
    -- a letter stands for the byte, or else its digits do
    rcases escape with rfl | rfl | control
    · rfl
    · rfl
    unfold escapeByte
    split
    · next h => subst h; rfl
    split
    · next h => subst h; rfl
    split
    · next h => subst h; rfl
    split
    · next h => subst h; rfl
    split
    · next h => subst h; rfl
    split
    · next h => subst h; rfl
    split
    · next h => subst h; rfl
    · obtain ⟨h, l, digits, unit⟩ := hexUnit?_digits control
      simp [piecesInto, digits, unit]
  · rw [pieceOf, if_neg escape, escapeByte_of_plain escape, List.singleton_append, piecesInto,
      if_neg fun backslash => escape (.inr (.inl backslash))]
    all_goals
      intros
      exact escape (.inr (.inl ‹_›))

theorem piecesInto_flatMap (found : List Piece) (bytes : Bytes) :
    piecesInto found (bytes.flatMap escapeByte) = some (found.reverse ++ bytes.map pieceOf) := by
  induction bytes generalizing found with
  | nil => simp [piecesInto]
  | cons b rest ih =>
      rw [List.flatMap_cons, piecesInto_escapeByte, ih]
      simp

theorem pieceBytes_unit {n : Nat} (single : isLeading n = false) (done : List Bytes)
    (rest : List Piece) :
    pieceBytes done (.unit n :: rest) = pieceBytes (codePointBytes n :: done) rest := by
  cases rest with
  | nil => rfl
  | cons p rest =>
      cases p with
      | plain b => rfl
      | unit m => simp [pieceBytes, single]

theorem pieceBytes_map (done : List Bytes) (bytes : Bytes) :
    pieceBytes done (bytes.map pieceOf) = done.reverse ++ bytes.map ([·]) := by
  induction bytes generalizing done with
  | nil => simp [pieceBytes]
  | cons b rest ih =>
      rw [List.map_cons, pieceOf]
      split
      · next escape =>
        have small := escape.toNat_lt
        have single : isLeading b.toNat = false := by
          simp only [isLeading, Bool.and_eq_false_iff, decide_eq_false_iff_not]
          omega
        have itself : codePointBytes b.toNat = [b] := by
          rw [codePointBytes, if_pos (by omega), UInt8.ofNat_toNat]
        rw [pieceBytes_unit single, itself, ih]
        simp
      · rw [pieceBytes, ih]
        simp

theorem isControl_pieceOf (b : UInt8) : (pieceOf b).isControl = false := by
  unfold pieceOf
  split
  · rfl
  · next plain =>
    have shown : ¬ b < 0x20 := fun control => plain (.inr (.inr control))
    simp [Piece.isControl, UInt8.not_lt.1 shown]

theorem stringText?_escaped (s : String) : stringText? (escaped s) = some s := by
  have read : pieces (escaped s) = some ((Bytes.ofText s).map pieceOf) :=
    piecesInto_flatMap [] (Bytes.ofText s)
  have bytes : Piece.bytes ((Bytes.ofText s).map pieceOf) = Bytes.ofText s := by
    rw [Piece.bytes, pieceBytes_map]
    simp [← List.flatMap_def]
  have shown : ((Bytes.ofText s).map pieceOf).any Piece.isControl = false := by
    simp [List.any_map, Function.comp_def, isControl_pieceOf]
  simp [stringText?, read, shown, bytes]

end ContractHost.Json
