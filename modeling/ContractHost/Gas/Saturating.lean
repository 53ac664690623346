/-!
Sums and products of 64-bit quantities that stop at the greatest one instead of wrapping around.
-/

namespace ContractHost.Gas

def greatest : UInt64 := 18446744073709551615

/-- A number as a quantity, or the greatest quantity if it does not fit. -/
def ofNatSat (n : Nat) : UInt64 := if n < 18446744073709551616 then UInt64.ofNat n else greatest

def addSat (a b : UInt64) : UInt64 := ofNatSat (a.toNat + b.toNat)

def mulSat (a b : UInt64) : UInt64 := ofNatSat (a.toNat * b.toNat)

def subSat (a b : UInt64) : UInt64 := UInt64.ofNat (a.toNat - b.toNat)

@[simp] theorem toNat_ofNatSat (n : Nat) :
    (ofNatSat n).toNat = min 18446744073709551615 n := by
  unfold ofNatSat
  split
  · rw [UInt64.toNat_ofNat_of_lt' (by assumption)]; omega
  · show 18446744073709551615 = _; omega

@[simp] theorem toNat_addSat (a b : UInt64) :
    (addSat a b).toNat = min 18446744073709551615 (a.toNat + b.toNat) := toNat_ofNatSat _

@[simp] theorem toNat_mulSat (a b : UInt64) :
    (mulSat a b).toNat = min 18446744073709551615 (a.toNat * b.toNat) := toNat_ofNatSat _

@[simp] theorem toNat_subSat (a b : UInt64) : (subSat a b).toNat = a.toNat - b.toNat := by
  have := a.toNat_lt
  rw [subSat, UInt64.toNat_ofNat_of_lt' (Nat.lt_of_le_of_lt (Nat.sub_le ..) this)]

end ContractHost.Gas
