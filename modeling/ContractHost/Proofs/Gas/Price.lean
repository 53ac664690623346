import ContractHost.Proofs.Gas.Tank
import Mathlib.Algebra.Group.Nat.Defs

/-!
What prices are, for all rates and costs.

The price of some bytes at a rate has four branches: nothing to pay, a rate without a denominator,
a quotient that fits and one that does not. What a price is at least, freed from the quotient, is
one condition for all of them (`Rate.le_mulFloor_iff`); how prices grow, and what becomes of a price
that is paid in parts, is read off that condition and not off the branches.

The quotient is of a product that needs 128 bits. The price is also worked out in words of that
size, with operations that give no result where a machine has none (`Rate.mulFloorWide?`), and the
result is always there and always the same.
-/

namespace ContractHost.Gas

def widen (a : UInt64) : BitVec 128 := a.toBitVec.setWidth 128

def narrow (a : BitVec 128) : UInt64 :=
  if a ≤ widen greatest then ⟨a.setWidth 64⟩ else greatest

/-- The product of two words, unless it overflows. -/
def wideMul? (a b : BitVec 128) : Option (BitVec 128) :=
  if a.umulOverflow b then none else some (a * b)

def wideDiv? (a b : BitVec 128) : Option (BitVec 128) :=
  if b = 0 then none else some (a / b)

@[simp] theorem toNat_widen (a : UInt64) : (widen a).toNat = a.toNat := by
  have bound := a.toNat_lt
  rw [widen, BitVec.toNat_setWidth, UInt64.toNat_toBitVec]
  omega

@[simp] theorem toNat_narrow (a : BitVec 128) : (narrow a).toNat = min greatest.toNat a.toNat := by
  unfold narrow
  split
  · next fits =>
    rw [BitVec.le_def, toNat_widen, toNat_greatest] at fits
    show (a.setWidth 64).toNat = _
    rw [BitVec.toNat_setWidth, toNat_greatest]
    omega
  · next beyond =>
    rw [BitVec.le_def, toNat_widen] at beyond
    omega

theorem wideMul?_widen (a b : UInt64) :
    ∃ product, wideMul? (widen a) (widen b) = some product ∧
      product.toNat = a.toNat * b.toNat := by
  have fits : a.toNat * b.toNat < 2 ^ 128 := by
    calc a.toNat * b.toNat < 2 ^ 64 * 2 ^ 64 := Nat.mul_lt_mul'' a.toNat_lt b.toNat_lt
      _ = 2 ^ 128 := by decide
  refine ⟨widen a * widen b, if_neg ?_, ?_⟩
  · simpa [BitVec.umulOverflow] using fits
  · rw [BitVec.toNat_mul, toNat_widen, toNat_widen, Nat.mod_eq_of_lt fits]

theorem wideDiv?_widen (a : BitVec 128) {b : UInt64} (divides : b ≠ 0) :
    ∃ quotient, wideDiv? a (widen b) = some quotient ∧ quotient.toNat = a.toNat / b.toNat := by
  have filled : widen b ≠ 0 := by
    intro zero
    have same := congrArg BitVec.toNat zero
    rw [toNat_widen] at same
    exact divides (UInt64.toNat_inj.1 same)
  refine ⟨a / widen b, if_neg filled, ?_⟩
  rw [BitVec.toNat_udiv, toNat_widen]

namespace Rate

/-- The price of `n` bytes, worked out in words of 128 bits. There is none if a product overflows
or if something is divided by zero. -/
def mulFloorWide? (r : Rate) (n : UInt64) : Option UInt64 :=
  if n = 0 ∨ r.numerator = 0 then some 0
  else if r.denominator = 0 then some greatest
  else do
    let product ← wideMul? (widen n) (widen r.numerator)
    let quotient ← wideDiv? product (widen r.denominator)
    return narrow quotient

variable {r : Rate} {m n : UInt64}

theorem mulFloor_of_free (free : n = 0 ∨ r.numerator = 0) : r.mulFloor n = 0 := if_pos free

theorem mulFloor_of_undivided (due : ¬ (n = 0 ∨ r.numerator = 0)) (undivided : r.denominator = 0) :
    r.mulFloor n = greatest := by
  rw [mulFloor, if_neg due, if_pos undivided]

theorem toNat_mulFloor_of_divided (due : ¬ (n = 0 ∨ r.numerator = 0))
    (divided : r.denominator ≠ 0) :
    (r.mulFloor n).toNat =
      min greatest.toNat (n.toNat * r.numerator.toNat / r.denominator.toNat) := by
  rw [mulFloor, if_neg due, if_neg divided, toNat_ofNatSat, toNat_greatest]

/-- Words of 128 bits are wide enough, and there is a divisor whenever one is needed. -/
theorem mulFloorWide?_eq (r : Rate) (n : UInt64) : r.mulFloorWide? n = some (r.mulFloor n) := by
  unfold mulFloorWide?
  split
  · next free => rw [mulFloor_of_free free]
  · next due =>
    split
    · next undivided => rw [mulFloor_of_undivided due undivided]
    · next divided =>
      obtain ⟨product, multiplied, product_eq⟩ := wideMul?_widen n r.numerator
      obtain ⟨quotient, parted, quotient_eq⟩ := wideDiv?_widen product divided
      simp only [multiplied, parted, Option.bind_eq_bind, Option.bind_some, Option.pure_def,
        Option.some_inj]
      apply UInt64.toNat_inj.1
      rw [toNat_narrow, quotient_eq, product_eq, toNat_mulFloor_of_divided due divided]

theorem product_pos_iff :
    0 < n.toNat * r.numerator.toNat ↔ ¬ (n = 0 ∨ r.numerator = 0) := by
  rw [Nat.pos_iff_ne_zero, ne_eq, Nat.mul_eq_zero, ← UInt64.toNat_inj, ← UInt64.toNat_inj]
  rfl

/-- What a price is at least, whichever branch gives it. -/
theorem le_mulFloor_iff {k : Nat} (pos : 0 < k) :
    k ≤ (r.mulFloor n).toNat ↔ k ≤ greatest.toNat ∧ 0 < n.toNat * r.numerator.toNat ∧
      k * r.denominator.toNat ≤ n.toNat * r.numerator.toNat := by
  rw [product_pos_iff]
  by_cases free : n = 0 ∨ r.numerator = 0
  · rw [mulFloor_of_free free, UInt64.toNat_zero]
    constructor
    · intro none
      omega
    · rintro ⟨-, due, -⟩
      exact absurd free due
  by_cases undivided : r.denominator = 0
  · rw [mulFloor_of_undivided free undivided, undivided, UInt64.toNat_zero, Nat.mul_zero]
    exact ⟨fun capped => ⟨capped, free, Nat.zero_le _⟩, fun paid => paid.1⟩
  · have divisor : 0 < r.denominator.toNat :=
      Nat.pos_of_ne_zero fun zero => undivided (UInt64.toNat_inj.1 zero)
    rw [toNat_mulFloor_of_divided free undivided, Nat.le_min, Nat.le_div_iff_mul_le divisor]
    exact ⟨fun paid => ⟨paid.1, free, paid.2⟩, fun paid => ⟨paid.1, paid.2.2⟩⟩

/-- More bytes, a greater numerator and a smaller denominator make a price no lower. The denominator
may go down to zero. -/
theorem mulFloor_le_mulFloor {r' : Rate} {n' : UInt64} (more : n ≤ n')
    (steeper : r.numerator ≤ r'.numerator) (coarser : r'.denominator ≤ r.denominator) :
    r.mulFloor n ≤ r'.mulFloor n' := by
  rw [UInt64.le_iff_toNat_le] at more steeper coarser ⊢
  rcases Nat.eq_zero_or_pos (r.mulFloor n).toNat with free | pos
  · omega
  obtain ⟨capped, due, paid⟩ := (le_mulFloor_iff pos).1 (Nat.le_refl _)
  have product : n.toNat * r.numerator.toNat ≤ n'.toNat * r'.numerator.toNat :=
    Nat.mul_le_mul more steeper
  refine (le_mulFloor_iff pos).2 ⟨capped, Nat.lt_of_lt_of_le due product, ?_⟩
  calc (r.mulFloor n).toNat * r'.denominator.toNat
      ≤ (r.mulFloor n).toNat * r.denominator.toNat := Nat.mul_le_mul_left _ coarser
    _ ≤ n.toNat * r.numerator.toNat := paid
    _ ≤ n'.toNat * r'.numerator.toNat := product

theorem addSat_mulFloor_le (r : Rate) (fits : m.toNat + n.toNat < 2 ^ 64) :
    addSat (r.mulFloor m) (r.mulFloor n) ≤ r.mulFloor (m + n) := by
  have sum : (m + n).toNat = m.toNat + n.toNat := by rw [UInt64.toNat_add, Nat.mod_eq_of_lt fits]
  rw [UInt64.le_iff_toNat_le, toNat_addSat, ← toNat_greatest]
  have first : r.mulFloor m ≤ r.mulFloor (m + n) :=
    mulFloor_le_mulFloor (UInt64.le_iff_toNat_le.2 (by omega)) UInt64.le_rfl UInt64.le_rfl
  have second : r.mulFloor n ≤ r.mulFloor (m + n) :=
    mulFloor_le_mulFloor (UInt64.le_iff_toNat_le.2 (by omega)) UInt64.le_rfl UInt64.le_rfl
  rw [UInt64.le_iff_toNat_le] at first second
  rcases Nat.eq_zero_or_pos (r.mulFloor m).toNat with free | pos
  · omega
  rcases Nat.eq_zero_or_pos (r.mulFloor n).toNat with free' | pos'
  · omega
  -- Both parts cost something, and so the products that they are rounded from add up.
  obtain ⟨-, due, paid⟩ := (le_mulFloor_iff pos).1 (Nat.le_refl _)
  obtain ⟨-, due', paid'⟩ := (le_mulFloor_iff pos').1 (Nat.le_refl _)
  have cap := Nat.min_le_right greatest.toNat ((r.mulFloor m).toNat + (r.mulFloor n).toNat)
  have top : 0 < greatest.toNat := by decide
  refine (le_mulFloor_iff (by omega)).2 ⟨Nat.min_le_left _ _, ?_, ?_⟩
  · rw [sum, Nat.add_mul]
    omega
  · calc min greatest.toNat ((r.mulFloor m).toNat + (r.mulFloor n).toNat) * r.denominator.toNat
        ≤ ((r.mulFloor m).toNat + (r.mulFloor n).toNat) * r.denominator.toNat :=
          Nat.mul_le_mul_right _ cap
      _ = (r.mulFloor m).toNat * r.denominator.toNat +
            (r.mulFloor n).toNat * r.denominator.toNat := Nat.add_mul ..
      _ ≤ m.toNat * r.numerator.toNat + n.toNat * r.numerator.toNat := Nat.add_le_add paid paid'
      _ = (m + n).toNat * r.numerator.toNat := by rw [sum, Nat.add_mul]

/-- What a rate promises of the prices that it gives. -/
structure Exact (r : Rate) : Prop where
  free {n : UInt64} : n = 0 ∨ r.numerator = 0 → r.mulFloor n = 0
  undivided {n : UInt64} : ¬ (n = 0 ∨ r.numerator = 0) → r.denominator = 0 →
    r.mulFloor n = greatest
  divided {n : UInt64} : ¬ (n = 0 ∨ r.numerator = 0) → r.denominator ≠ 0 →
    (r.mulFloor n).toNat =
      min greatest.toNat (n.toNat * r.numerator.toNat / r.denominator.toNat)
  /-- No product overflows 128 bits, and nothing is divided by zero. -/
  wide (n : UInt64) : r.mulFloorWide? n = some (r.mulFloor n)
  grows {r' : Rate} {n n' : UInt64} : n ≤ n' → r.numerator ≤ r'.numerator →
    r'.denominator ≤ r.denominator → r.mulFloor n ≤ r'.mulFloor n'
  parts {m n : UInt64} : m.toNat + n.toNat < 2 ^ 64 →
    addSat (r.mulFloor m) (r.mulFloor n) ≤ r.mulFloor (m + n)

end Rate

namespace Costs

/-- A request that touches more bytes costs no less, and neither does one where either part of the
price is greater. -/
theorem of_le_of {c c' : Costs} {bytes bytes' : Nat} (flat : c.op ≤ c'.op)
    (steeper : c.perByte ≤ c'.perByte) (more : bytes ≤ bytes') : c.of bytes ≤ c'.of bytes' := by
  rw [UInt64.le_iff_toNat_le] at flat steeper ⊢
  rw [toNat_of, toNat_of]
  have product : c.perByte.toNat * bytes ≤ c'.perByte.toNat * bytes' :=
    Nat.mul_le_mul steeper more
  omega

structure Exact (c : Costs) : Prop where
  price (bytes : Nat) :
    (c.of bytes).toNat = min greatest.toNat (c.op.toNat + c.perByte.toNat * bytes)
  grows {c' : Costs} {bytes bytes' : Nat} : c.op ≤ c'.op → c.perByte ≤ c'.perByte →
    bytes ≤ bytes' → c.of bytes ≤ c'.of bytes'

end Costs

/-- All prices are exact up to the greatest quantity, where they stop, and rounded down nowhere but
in the one quotient. They never fall where a part of them grows, other than the denominator of a
rate, and bytes are never dearer for being paid for in parts. -/
theorem prices_exact (r : Rate) (c : Costs) : r.Exact ∧ c.Exact := by
  constructor
  · exact
      { free := Rate.mulFloor_of_free
        undivided := Rate.mulFloor_of_undivided
        divided := Rate.toNat_mulFloor_of_divided
        wide := r.mulFloorWide?_eq
        grows := Rate.mulFloor_le_mulFloor
        parts := r.addSat_mulFloor_le }
  · exact ⟨c.toNat_of, Costs.of_le_of⟩

/-- Paid for one by one, two bytes can be cheaper. -/
example : addSat (Rate.mulFloor ⟨1, 2⟩ 1) (Rate.mulFloor ⟨1, 2⟩ 1) = 0 ∧
    Rate.mulFloor ⟨1, 2⟩ 2 = 1 := by decide

end ContractHost.Gas
