import ContractHost.Gas.Price
import ContractHost.Gas.Tank

/-!
Charges in natural numbers: what a tank admits, what it has given out by then,
and what a request costs.
-/

namespace ContractHost.Gas

theorem toNat_greatest : greatest.toNat = 18446744073709551615 := rfl

theorem addSat_assoc (a b c : UInt64) : addSat (addSat a b) c = addSat a (addSat b c) := by
  apply UInt64.toNat_inj.1
  simp only [toNat_addSat]
  omega

theorem zero_addSat (a : UInt64) : addSat 0 a = a := by
  have bound := a.toNat_lt
  apply UInt64.toNat_inj.1
  rw [toNat_addSat, UInt64.toNat_zero]
  omega

theorem addSat_zero (a : UInt64) : addSat a 0 = a := by
  have bound := a.toNat_lt
  apply UInt64.toNat_inj.1
  rw [toNat_addSat, UInt64.toNat_zero]
  omega

theorem addSat_le_addSat {b c : UInt64} (a : UInt64) (le : b ≤ c) : addSat a b ≤ addSat a c := by
  rw [UInt64.le_iff_toNat_le] at le ⊢
  simp only [toNat_addSat]
  omega

namespace Tank

theorem charge_eq_ok {t t' : Tank} {units : UInt64} (h : t.charge units = (t', .ok ())) :
    t' = { t with used := addSat t.used units } ∧ t'.used ≤ t.limit := by
  unfold charge at h
  dsimp only at h
  split at h
  · next within =>
    cases h
    exact ⟨rfl, within⟩
  · cases h

theorem charge_eq_error {t t' : Tank} {units : UInt64} {refusal : Refusal}
    (h : t.charge units = (t', .error refusal)) :
    t' = { t with exhausted := true } ∧ refusal = ⟨units, t.remaining⟩ ∧
      t.limit < addSat t.used units := by
  unfold charge at h
  dsimp only at h
  split at h
  · cases h
  · next beyond =>
    cases h
    exact ⟨rfl, rfl, UInt64.not_le.1 beyond⟩

/-- A tank that may give out all the gas there can be refuses nothing: beyond that it does not
count. -/
theorem charge_of_greatest {t : Tank} (ample : t.limit = greatest) (units : UInt64) :
    t.charge units = ({ t with used := addSat t.used units }, .ok ()) := by
  have within : addSat t.used units ≤ t.limit := by
    rw [ample, UInt64.le_iff_toNat_le, toNat_addSat, toNat_greatest]
    omega
  exact if_pos within

theorem used_charge_of_finite {t t' : Tank} {units : UInt64} (finite : t.limit ≠ greatest)
    (h : t.charge units = (t', .ok ())) : t'.used.toNat = t.used.toNat + units.toNat := by
  obtain ⟨rfl, within⟩ := charge_eq_ok h
  have bound := t.limit.toNat_lt
  have below : t.limit.toNat ≠ greatest.toNat := mt UInt64.toNat_inj.1 finite
  rw [UInt64.le_iff_toNat_le, toNat_addSat] at within
  rw [toNat_greatest] at below
  rw [toNat_addSat]
  omega

/-- From a tank with a limit, `n` units were used in all; beyond the greatest
quantity the tank does not count. -/
structure Spent (t : Tank) (limit : UInt64) (n : Nat) : Prop where
  limit_eq : t.limit = limit
  within : t.used ≤ limit
  used_eq : t.used.toNat = min greatest.toNat n

namespace Spent

theorem new (limit meter : UInt64) : (Tank.new limit meter).Spent limit 0 where
  limit_eq := rfl
  within := UInt64.zero_le
  used_eq := (Nat.min_zero _).symm

theorem charge_ok {t t' : Tank} {limit units : UInt64} {n : Nat} (s : t.Spent limit n)
    (h : t.charge units = (t', .ok ())) : t'.Spent limit (n + units.toNat) := by
  obtain ⟨rfl, within⟩ := charge_eq_ok h
  refine ⟨s.limit_eq, s.limit_eq ▸ within, ?_⟩
  have used := s.used_eq
  simp only [toNat_greatest, toNat_addSat] at used ⊢
  omega

theorem charge_error {t t' : Tank} {limit units : UInt64} {n : Nat} {refusal : Refusal}
    (s : t.Spent limit n) (h : t.charge units = (t', .error refusal)) : t'.Spent limit n := by
  obtain ⟨rfl, -, -⟩ := charge_eq_error h
  exact ⟨s.limit_eq, s.within, s.used_eq⟩

end Spent

end Tank

theorem Costs.toNat_of (c : Costs) (bytes : Nat) :
    (c.of bytes).toNat = min greatest.toNat (c.op.toNat + c.perByte.toNat * bytes) := by
  simp only [toNat_greatest, Costs.of, toNat_addSat, toNat_mulSat, toNat_ofNatSat]
  rcases Nat.eq_zero_or_pos c.perByte.toNat with free | dear
  · simp [free]
  · rcases Nat.lt_or_ge bytes 18446744073709551616 with small | great
    · rw [Nat.min_eq_right (by omega : bytes ≤ 18446744073709551615)]
      omega
    · -- so many bytes cost the greatest quantity at whatever price
      have least : bytes ≤ c.perByte.toNat * bytes := Nat.le_mul_of_pos_left _ dear
      have capped : 18446744073709551615 ≤ c.perByte.toNat * min 18446744073709551615 bytes := by
        rw [Nat.min_eq_left (by omega)]
        exact Nat.le_mul_of_pos_left _ dear
      omega

end ContractHost.Gas
