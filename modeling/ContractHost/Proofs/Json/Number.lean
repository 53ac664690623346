import ContractHost.Proofs.Json.Numeral
import Mathlib.Algebra.Group.Int.Defs

/-!
The numbers of JSON texts: which bytes are a number, and what a number is taken for.

A number is spelled by a sign, digits that do not start with a needless zero, perhaps
a point with digits, and perhaps an exponent. Exactly what is spelled so is read
(`read_eq_some_iff`). Only a number without point and exponent is taken for an integer,
if it has 64 bits and is no negative zero (`value?_eq_some_iff`).
-/

namespace ContractHost.Json

namespace Numeral

structure Digits (digits : List Nat) (b : Bytes) : Prop where
  filled : digits ≠ []
  small : ∀ d ∈ digits, d < 10
  bytes : b = digits.map fun d => UInt8.ofNat (0x30 + d)

inductive Fraction : Option (List Nat) → Bytes → Prop
  | none : Fraction none []
  | some {digits : List Nat} {b : Bytes} : Digits digits b → Fraction (some digits) (0x2E :: b)

/-- The sign of an exponent, which may be left out. -/
inductive ExponentSign : Bool → Bytes → Prop
  | none : ExponentSign false []
  | plus : ExponentSign false [0x2B]
  | minus : ExponentSign true [0x2D]

inductive Exponent : Option (Bool × List Nat) → Bytes → Prop
  | none : Exponent none []
  | some {letter : UInt8} {negative : Bool} {digits : List Nat} {sign b : Bytes} :
    letter = 0x65 ∨ letter = 0x45 → ExponentSign negative sign → Digits digits b →
    Exponent (some (negative, digits)) (letter :: (sign ++ b))

inductive Spelled : Numeral → Bytes → Prop
  | mk {n : Numeral} {whole fraction exponent : Bytes} :
    Digits n.whole whole → (n.whole.head? = some 0 → n.whole = [0]) →
    Fraction n.fraction fraction → Exponent n.exponent exponent →
    Spelled n ((if n.negative then [0x2D] else []) ++ (whole ++ (fraction ++ exponent)))

def NoDigit (b : Bytes) : Prop := ∀ c ∈ b.head?, digit? c = none

theorem digit?_eq_some_iff {b : UInt8} {d : Nat} :
    digit? b = some d ↔ d < 10 ∧ b = UInt8.ofNat (0x30 + d) := by
  have low : (0x30 : UInt8).toNat = 0x30 := rfl
  have high : (0x39 : UInt8).toNat = 0x39 := rfl
  unfold digit?
  constructor
  · intro digit
    split at digit
    · next within =>
      rw [UInt8.le_iff_toNat_le, UInt8.le_iff_toNat_le, low, high] at within
      obtain rfl := Option.some.inj digit
      refine ⟨by omega, UInt8.toNat_inj.1 ?_⟩
      have fits : 0x30 + (b.toNat - 0x30) < 2 ^ 8 := by omega
      rw [UInt8.toNat_ofNat_of_lt' fits]
      omega
    · cases digit
  · rintro ⟨small, rfl⟩
    have fits : 0x30 + d < 2 ^ 8 := by omega
    have byte : (UInt8.ofNat (0x30 + d)).toNat = 0x30 + d := UInt8.toNat_ofNat_of_lt' fits
    rw [if_pos (by rw [UInt8.le_iff_toNat_le, UInt8.le_iff_toNat_le, low, high, byte]; omega), byte]
    congr 1
    omega

theorem takeDigits_cons (c : UInt8) (b : Bytes) : takeDigits (c :: b) =
    match digit? c with
    | some d => (d :: (takeDigits b).1, (takeDigits b).2)
    | none => ([], c :: b) := by
  cases digit : digit? c <;> simp [takeDigits, digit]

theorem noDigit_nil : NoDigit [] := nofun

theorem noDigit_cons {c : UInt8} (other : digit? c = none) (b : Bytes) : NoDigit (c :: b) := by
  rintro _ ⟨⟩
  exact other

theorem Digits.take {digits : List Nat} {b rest : Bytes} (spelled : Digits digits b)
    (stop : NoDigit rest) : takeDigits (b ++ rest) = (digits, rest) := by
  obtain ⟨-, small, rfl⟩ := spelled
  induction digits with
  | nil =>
      cases rest with
      | nil => rfl
      | cons c b => rw [List.map_nil, List.nil_append, takeDigits_cons, stop c rfl]
  | cons d digits ih =>
      obtain ⟨first, others⟩ := List.forall_mem_cons.1 small
      rw [List.map_cons, List.cons_append, takeDigits_cons, digit?_eq_some_iff.2 ⟨first, rfl⟩,
        ih others]

theorem takeDigits_spells (b : Bytes) : (∀ d ∈ (takeDigits b).1, d < 10) ∧
    b = (takeDigits b).1.map (fun d => UInt8.ofNat (0x30 + d)) ++ (takeDigits b).2 ∧
      NoDigit (takeDigits b).2 := by
  induction b with
  | nil => exact ⟨List.forall_mem_nil _, rfl, noDigit_nil⟩
  | cons c b ih =>
      rw [takeDigits_cons]
      cases digit : digit? c with
      | none => exact ⟨List.forall_mem_nil _, rfl, noDigit_cons digit b⟩
      | some d =>
          obtain ⟨small, bytes, stop⟩ := ih
          obtain ⟨first, rfl⟩ := digit?_eq_some_iff.1 digit
          exact ⟨List.forall_mem_cons.2 ⟨first, small⟩, congrArg (_ :: ·) bytes, stop⟩

theorem digits_of_take {b : Bytes} (filled : (takeDigits b).1 ≠ []) :
    ∃ front, b = front ++ (takeDigits b).2 ∧ Digits (takeDigits b).1 front ∧
      NoDigit (takeDigits b).2 := by
  obtain ⟨small, bytes, stop⟩ := takeDigits_spells b
  exact ⟨_, bytes, ⟨filled, small, rfl⟩, stop⟩

theorem Digits.first {digits : List Nat} {b : Bytes} (spelled : Digits digits b) :
    ∃ c rest, b = c :: rest ∧ (digit? c).isSome := by
  obtain ⟨filled, small, rfl⟩ := spelled
  obtain ⟨d, digits, rfl⟩ := List.exists_cons_of_ne_nil filled
  refine ⟨_, _, rfl, ?_⟩
  rw [digit?_eq_some_iff.2 ⟨small d List.mem_cons_self, rfl⟩, Option.isSome_some]

/-- What is read behind the sign of an exponent: digits, to the end of the number. -/
def exponentDigits (negative : Bool) (b : Bytes) : Option (Option (Bool × List Nat)) :=
  if (takeDigits b).1.isEmpty ∨ !(takeDigits b).2.isEmpty then none
  else some (some (negative, (takeDigits b).1))

theorem exponentDigits_eq_some_iff {negative : Bool} {e : Option (Bool × List Nat)} {b : Bytes} :
    exponentDigits negative b = some e ↔
      ∃ digits, e = some (negative, digits) ∧ Digits digits b := by
  constructor
  · intro read
    unfold exponentDigits at read
    split at read
    · cases read
    · next ended =>
      cases read
      simp only [List.isEmpty_iff, Bool.not_eq_true', List.isEmpty_eq_false_iff, not_or,
        not_not] at ended
      obtain ⟨front, bytes, spelled, -⟩ := digits_of_take ended.1
      rw [ended.2, List.append_nil] at bytes
      exact ⟨_, rfl, bytes ▸ spelled⟩
  · rintro ⟨digits, rfl, spelled⟩
    have taken := spelled.take noDigit_nil
    rw [List.append_nil] at taken
    simp [exponentDigits, taken, spelled.filled]

def NoSign (b : Bytes) : Prop := ∀ c ∈ b.head?, c ≠ 0x2D ∧ c ≠ 0x2B

theorem Digits.noSign {digits : List Nat} {b : Bytes} (spelled : Digits digits b) : NoSign b := by
  obtain ⟨c, rest, rfl, digit⟩ := spelled.first
  rintro _ ⟨⟩
  constructor <;> rintro rfl <;> cases digit

theorem readExponent_sign {letter : UInt8} {negative : Bool} {sign b : Bytes}
    (known : letter = 0x65 ∨ letter = 0x45) (signed : ExponentSign negative sign)
    (bare : sign = [] → NoSign b) :
    readExponent (letter :: (sign ++ b)) = exponentDigits negative b := by
  simp only [readExponent, exponentDigits]
  rw [if_pos known]
  cases signed with
  | none =>
      cases b with
      | nil => rfl
      | cons c rest =>
          obtain ⟨minus, plus⟩ := bare rfl c rfl
          simp only [List.nil_append, minus, plus, if_false]
  | plus => rfl
  | minus => rfl

theorem exists_sign (b : Bytes) : ∃ negative sign rest, b = sign ++ rest ∧
    ExponentSign negative sign ∧ (sign = [] → NoSign rest) := by
  cases b with
  | nil => exact ⟨_, _, _, rfl, .none, fun _ => nofun⟩
  | cons c rest =>
      by_cases minus : c = 0x2D
      · exact ⟨_, _, rest, by rw [minus]; rfl, .minus, nofun⟩
      by_cases plus : c = 0x2B
      · exact ⟨_, _, rest, by rw [plus]; rfl, .plus, nofun⟩
      refine ⟨_, _, c :: rest, rfl, .none, fun _ => ?_⟩
      rintro _ ⟨⟩
      exact ⟨minus, plus⟩

theorem readExponent_eq_some_iff {e : Option (Bool × List Nat)} {b : Bytes} :
    readExponent b = some e ↔ Exponent e b := by
  constructor
  · intro read
    cases b with
    | nil =>
        cases read
        exact .none
    | cons letter rest =>
        by_cases known : letter = 0x65 ∨ letter = 0x45
        · obtain ⟨negative, sign, b, rfl, signed, bare⟩ := exists_sign rest
          rw [readExponent_sign known signed bare, exponentDigits_eq_some_iff] at read
          obtain ⟨digits, rfl, spelled⟩ := read
          exact .some known signed spelled
        · simp only [readExponent] at read
          rw [if_neg known] at read
          cases read
  · intro spelled
    cases spelled with
    | none => rfl
    | some known signed digits =>
        rw [readExponent_sign known signed fun _ => digits.noSign]
        exact exponentDigits_eq_some_iff.2 ⟨_, rfl, digits⟩

theorem Exponent.noDigit {e : Option (Bool × List Nat)} {b : Bytes} (spelled : Exponent e b) :
    NoDigit b := by
  cases spelled with
  | none => exact noDigit_nil
  | some known _ _ => rcases known with rfl | rfl <;> exact noDigit_cons rfl _

theorem Fraction.noDigit {f : Option (List Nat)} {e : Option (Bool × List Nat)} {b rest : Bytes}
    (fraction : Fraction f b) (exponent : Exponent e rest) : NoDigit (b ++ rest) := by
  cases fraction with
  | none => exact exponent.noDigit
  | some _ => exact noDigit_cons rfl _

theorem readFraction_eq_some_iff {negative : Bool} {whole : List Nat} {b : Bytes} {n : Numeral} :
    readFraction negative whole b = some n ↔ ∃ f e front rest, n = ⟨negative, whole, f, e⟩ ∧
      b = front ++ rest ∧ Fraction f front ∧ Exponent e rest := by
  constructor
  · intro read
    unfold readFraction at read
    split at read
    · next rest =>
      dsimp only at read
      split at read
      · cases read
      · next filled =>
        rw [List.isEmpty_iff] at filled
        obtain ⟨front, bytes, digits, -⟩ := digits_of_take filled
        obtain ⟨e, exponent, rfl⟩ := Option.map_eq_some_iff.1 read
        refine ⟨_, e, 0x2E :: front, _, rfl, congrArg (0x2E :: ·) bytes, .some digits, ?_⟩
        exact readExponent_eq_some_iff.1 exponent
    · obtain ⟨e, exponent, rfl⟩ := Option.map_eq_some_iff.1 read
      exact ⟨_, e, [], b, rfl, rfl, .none, readExponent_eq_some_iff.1 exponent⟩
  · rintro ⟨f, e, front, rest, rfl, rfl, fraction, exponent⟩
    have read := readExponent_eq_some_iff.2 exponent
    cases fraction with
    | none =>
        cases exponent with
        | none => rfl
        | some known _ _ =>
            rcases known with rfl | rfl
            all_goals
              simp only [List.nil_append] at read ⊢
              simp only [readFraction, read, Option.map_some]
              rfl
    | some digits =>
        have taken := digits.take exponent.noDigit
        have filled : List.isEmpty _ = false := List.isEmpty_eq_false_iff.2 digits.filled
        simp only [List.cons_append, readFraction, taken, filled, read, Option.map_some,
          Bool.false_eq_true, if_false]

/-- The digits before the point: at least one, and no zero before others. -/
def Whole (digits : List Nat) : Prop := digits ≠ [] ∧ (digits.head? = some 0 → digits = [0])

instance (digits : List Nat) : Decidable (Whole digits) := inferInstanceAs (Decidable (_ ∧ _))

def readWhole (negative : Bool) (b : Bytes) : Option Numeral :=
  if Whole (takeDigits b).1 then readFraction negative (takeDigits b).1 (takeDigits b).2 else none

theorem whole_of_ne {digits : List Nat} (filled : digits ≠ [])
    (single : ∀ d rest, digits ≠ 0 :: d :: rest) : Whole digits := by
  refine ⟨filled, fun zero => ?_⟩
  match digits, zero with
  | [_], rfl => rfl
  | _ :: d :: rest, rfl => exact absurd rfl (single d rest)

theorem read_minus (b : Bytes) : read (0x2D :: b) = readWhole true b := by
  simp only [read, readWhole]
  split
  · next none => rw [none, if_neg (by simp [Whole])]
  · next zero => rw [zero, if_neg (by simp [Whole])]
  · next filled single => rw [if_pos (whole_of_ne filled single)]

theorem read_unsigned {b : Bytes} (unsigned : ∀ c ∈ b.head?, c ≠ 0x2D) :
    read b = readWhole false b := by
  unfold read readWhole
  split
  next start =>
  split at start
  · exact absurd rfl (unsigned 0x2D rfl)
  · cases start
    dsimp only
    split
    · next none => rw [none, if_neg (by simp [Whole])]
    · next zero => rw [zero, if_neg (by simp [Whole])]
    · next filled single => rw [if_pos (whole_of_ne filled single)]

theorem readWhole_eq_some_iff {negative : Bool} {b : Bytes} {n : Numeral} :
    readWhole negative b = some n ↔ ∃ whole rest, b = whole ++ rest ∧ Digits n.whole whole ∧
      (n.whole.head? = some 0 → n.whole = [0]) ∧ ∃ fraction exponent,
        rest = fraction ++ exponent ∧ n.negative = negative ∧ Fraction n.fraction fraction ∧
          Exponent n.exponent exponent := by
  constructor
  · intro read
    unfold readWhole at read
    split at read
    · next whole =>
      obtain ⟨front, bytes, digits, -⟩ := digits_of_take whole.1
      obtain ⟨f, e, fb, eb, rfl, rest, fraction, exponent⟩ := readFraction_eq_some_iff.1 read
      exact ⟨front, _, bytes, digits, whole.2, fb, eb, rest, rfl, fraction, exponent⟩
    · cases read
  · rintro ⟨front, _, rfl, digits, zero, fb, eb, rfl, rfl, fraction, exponent⟩
    have taken := digits.take (fraction.noDigit exponent)
    rw [readWhole, taken, if_pos ⟨digits.filled, zero⟩]
    exact readFraction_eq_some_iff.2 ⟨_, _, fb, eb, rfl, rfl, fraction, exponent⟩

/-- Exactly the numbers are read. -/
theorem read_eq_some_iff {b : Bytes} {n : Numeral} : read b = some n ↔ Spelled n b := by
  constructor
  · intro accepted
    have spelled {negative : Bool} {rest : Bytes} (whole : readWhole negative rest = some n) :
        Spelled n ((if negative then [0x2D] else []) ++ rest) := by
      obtain ⟨front, _, rfl, digits, zero, fb, eb, rfl, rfl, fraction, exponent⟩ :=
        readWhole_eq_some_iff.1 whole
      exact .mk digits zero fraction exponent
    by_cases minus : ∃ rest, b = 0x2D :: rest
    · obtain ⟨rest, rfl⟩ := minus
      rw [read_minus] at accepted
      exact spelled accepted
    · rw [read_unsigned] at accepted
      · exact spelled accepted
      · intro c first minus'
        obtain ⟨rest, rfl⟩ := List.head?_eq_some_iff.1 first
        exact minus ⟨rest, by rw [minus']⟩
  · rintro ⟨digits, zero, fraction, exponent⟩
    have whole := readWhole_eq_some_iff.2 ⟨_, _, rfl, digits, zero, _, _, rfl, rfl, fraction,
      exponent⟩
    cases sign : n.negative with
    | true =>
        rw [sign] at whole
        exact (read_minus _).trans whole
    | false =>
        rw [sign] at whole
        refine (read_unsigned ?_).trans whole
        obtain ⟨c, rest, rfl, digit⟩ := digits.first
        rintro _ ⟨⟩ rfl
        cases digit

section Value

variable {n : Numeral} {i : Int}

def integer (n : Numeral) : Int :=
  if n.negative then -(ofDigits n.whole : Int) else ofDigits n.whole

/-- The number is an integer: without point and exponent, of 64 bits with or without sign, and no
zero with a sign. -/
structure IsInteger (n : Numeral) (i : Int) : Prop where
  fraction : n.fraction = none
  exponent : n.exponent = none
  value : n.integer = i
  least : -2 ^ 63 ≤ i
  most : i < 2 ^ 64
  zero : n.negative = true → i ≠ 0

/-- The bits of the double that a number is taken for otherwise, unless it is too great for one. -/
def doubleBits? (n : Numeral) : Option UInt64 :=
  n.magnitude?.map fun f => if n.negative then (-f).toBits else f.toBits

theorem value?_eq_of_isInteger (whole : n.IsInteger i) : n.value? = some (.int i) := by
  obtain ⟨fraction, exponent, rfl, least, most, zero⟩ := whole
  unfold integer at *
  cases sign : n.negative with
  | false =>
      simp only [sign, Bool.false_eq_true, if_false] at most ⊢
      have below : ofDigits n.whole < 18446744073709551616 := by omega
      simp [value?, fraction, exponent, sign, below]
  | true =>
      simp only [sign, if_true] at least zero ⊢
      have pos : 0 < ofDigits n.whole := by
        have nonzero := zero trivial
        omega
      have below : ofDigits n.whole ≤ 9223372036854775808 := by omega
      simp [value?, fraction, exponent, sign, pos, below]

theorem value?_eq_of_not_isInteger (other : ∀ i, ¬ n.IsInteger i) :
    n.value? = n.doubleBits?.map .double := by
  have positive : ¬ (n.fraction.isNone ∧ n.exponent.isNone ∧ !n.negative ∧
      ofDigits n.whole < 18446744073709551616) := by
    rintro ⟨fraction, exponent, sign, below⟩
    rw [Bool.not_eq_true'] at sign
    refine other (ofDigits n.whole) ⟨Option.isNone_iff_eq_none.1 fraction,
      Option.isNone_iff_eq_none.1 exponent, by simp [integer, sign], by omega, by omega, ?_⟩
    simp [sign]
  have negative : ¬ (n.fraction.isNone ∧ n.exponent.isNone ∧ n.negative ∧ 0 < ofDigits n.whole ∧
      ofDigits n.whole ≤ 9223372036854775808) := by
    rintro ⟨fraction, exponent, sign, pos, below⟩
    exact other (-ofDigits n.whole) ⟨Option.isNone_iff_eq_none.1 fraction,
      Option.isNone_iff_eq_none.1 exponent, by simp [integer, sign], by omega, by omega,
      fun _ => by omega⟩
  simp only [value?, doubleBits?]
  rw [if_neg positive, if_neg negative, Option.map_map]
  rfl

theorem value?_eq_some_iff {v : Value} : n.value? = some v ↔ (∃ i, n.IsInteger i ∧ v = .int i) ∨
    (∀ i, ¬ n.IsInteger i) ∧ ∃ bits, n.doubleBits? = some bits ∧ v = .double bits := by
  by_cases whole : ∃ i, n.IsInteger i
  · obtain ⟨i, whole⟩ := whole
    have only (j : Int) (other : n.IsInteger j) : j = i := other.value.symm.trans whole.value
    rw [value?_eq_of_isInteger whole, Option.some_inj]
    constructor
    · rintro rfl
      exact .inl ⟨i, whole, rfl⟩
    · rintro (⟨j, other, rfl⟩ | ⟨none, -⟩)
      · rw [only j other]
      · exact absurd whole (none i)
  · rw [not_exists] at whole
    rw [value?_eq_of_not_isInteger whole, Option.map_eq_some_iff]
    constructor
    · rintro ⟨bits, some, rfl⟩
      exact .inr ⟨whole, bits, some, rfl⟩
    · rintro (⟨i, some, -⟩ | ⟨-, bits, some, rfl⟩)
      · exact absurd some (whole i)
      · exact ⟨bits, some, rfl⟩

end Value

end Numeral

end ContractHost.Json
