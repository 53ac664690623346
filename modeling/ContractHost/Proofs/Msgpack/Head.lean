import ContractHost.Msgpack.Writer
import Mathlib.Tactic.Ring

/-!
The heads of MessagePack values are read as they were written: the number, or the
length, in whichever of its forms it stands.
-/

namespace ContractHost.Msgpack

theorem writeBE_zero (n : Nat) : writeBE 0 n = [] := rfl

theorem writeBE_succ (k n : Nat) :
    writeBE (k + 1) n = UInt8.ofNat (n / 256 ^ k) :: writeBE k n := rfl

theorem readBE_writeBE (k acc n : Nat) (rest : Bytes) :
    readBE k acc (writeBE k n ++ rest) = some (acc * 256 ^ k + n % 256 ^ k, rest) := by
  induction k generalizing acc with
  | zero => simp [readBE, writeBE_zero, Nat.mod_one]
  | succ k ih =>
      have byte : (UInt8.ofNat (n / 256 ^ k)).toNat = n / 256 ^ k % 256 := UInt8.toNat_ofNat'
      have value : (acc * 256 + n / 256 ^ k % 256) * 256 ^ k + n % 256 ^ k =
          acc * 256 ^ (k + 1) + n % 256 ^ (k + 1) := by
        rw [Nat.mod_pow_succ]
        ring
      rw [writeBE_succ, List.cons_append, readBE, ih, byte, value]

theorem readBE_of_lt {k n : Nat} (fits : n < 256 ^ k) (rest : Bytes) :
    readBE k 0 (writeBE k n ++ rest) = some (n, rest) := by
  rw [readBE_writeBE, Nat.zero_mul, Nat.zero_add, Nat.mod_eq_of_lt fits]

theorem readHead_short {m : UInt8} {h : Head} (short : Head.short? m.toNat = some h)
    (rest : Bytes) : readHead (m :: rest) = some (h, rest) := by
  simp [readHead, short]

theorem readHead_sized {m : UInt8} {k n : Nat} {make : Nat → Head}
    (long : Head.short? m.toNat = none) (sized : Head.sized? m.toNat = some (k, make))
    (fits : n < 256 ^ k) (rest : Bytes) :
    readHead (m :: writeBE k n ++ rest) = some (make n, rest) := by
  simp [readHead, long, sized, readBE_of_lt fits]

theorem toNat_ofNat_add {base n : Nat} (fits : base + n < 256) :
    (UInt8.ofNat (base + n)).toNat = base + n :=
  UInt8.toNat_ofNat_of_lt' fits

theorem short?_map {n : Nat} (short : n < 16) : Head.short? (0x80 + n) = some (.map n) := by
  rw [Head.short?, if_neg (by omega), if_pos (by omega), Nat.add_sub_cancel_left]

theorem short?_array {n : Nat} (short : n < 16) : Head.short? (0x90 + n) = some (.array n) := by
  rw [Head.short?, if_neg (by omega), if_neg (by omega), if_pos (by omega),
    Nat.add_sub_cancel_left]

theorem short?_str {n : Nat} (short : n < 32) : Head.short? (0xA0 + n) = some (.str n) := by
  rw [Head.short?, if_neg (by omega), if_neg (by omega), if_neg (by omega), if_pos (by omega),
    Nat.add_sub_cancel_left]

theorem short?_ext {k : Nat} (known : k < 5) :
    Head.short? (0xD4 + k) = some (.ext (2 ^ k)) := by
  have each : ∀ k < 5, Head.short? (0xD4 + k) = some (.ext (2 ^ k)) := by decide
  exact each k known

theorem readHead_writeStrHead {n : Nat} (fits : n < 2 ^ 32) (rest : Bytes) :
    readHead (writeStrHead n ++ rest) = some (.str n, rest) := by
  unfold writeStrHead
  split
  · next small =>
    refine readHead_short ?_ rest
    rw [toNat_ofNat_add (by omega), short?_str small]
  split
  · next small => exact readHead_sized rfl rfl small rest
  split
  · next small => exact readHead_sized rfl rfl small rest
  · exact readHead_sized rfl rfl fits rest

theorem readHead_writeBinHead {n : Nat} (fits : n < 2 ^ 32) (rest : Bytes) :
    readHead (writeBinHead n ++ rest) = some (.bin n, rest) := by
  unfold writeBinHead
  split
  · next small => exact readHead_sized rfl rfl small rest
  split
  · next small => exact readHead_sized rfl rfl small rest
  · exact readHead_sized rfl rfl fits rest

theorem readHead_writeArrayHead {n : Nat} (fits : n < 2 ^ 32) (rest : Bytes) :
    readHead (writeArrayHead n ++ rest) = some (.array n, rest) := by
  unfold writeArrayHead
  split
  · next small =>
    refine readHead_short ?_ rest
    rw [toNat_ofNat_add (by omega), short?_array small]
  split
  · next small => exact readHead_sized rfl rfl small rest
  · exact readHead_sized rfl rfl fits rest

theorem readHead_writeMapHead {n : Nat} (fits : n < 2 ^ 32) (rest : Bytes) :
    readHead (writeMapHead n ++ rest) = some (.map n, rest) := by
  unfold writeMapHead
  split
  · next small =>
    refine readHead_short ?_ rest
    rw [toNat_ofNat_add (by omega), short?_map small]
  split
  · next small => exact readHead_sized rfl rfl small rest
  · exact readHead_sized rfl rfl fits rest

theorem short?_of_negative {m : Nat} (marker : 0xE0 ≤ m) :
    Head.short? m = some (.sint ((m : Int) - 256)) := by
  unfold Head.short?
  repeat rw [if_neg (by omega)]
  rw [if_pos marker]

theorem signed_of_neg {k : Nat} {i : Int} (neg : i < 0) (least : -(256 ^ k : Nat) ≤ 2 * i) :
    signed k (i + (256 ^ k : Nat)).toNat = i := by
  have bound : Nat.pow 256 k = 256 ^ k := rfl
  unfold signed
  rw [bound]
  generalize 256 ^ k = b at least ⊢
  rw [if_neg (by omega)]
  omega

def intHead (i : Int) : Head := if 0 ≤ i then .uint i.toNat else .sint i

theorem readHead_signed {m : UInt8} {k : Nat} {i : Int} (long : Head.short? m.toNat = none)
    (sized : Head.sized? m.toNat = some (k, fun n => .sint (signed k n))) (neg : i < 0)
    (least : -(256 ^ k : Nat) ≤ 2 * i) (rest : Bytes) :
    readHead (m :: writeBE k (i + (256 ^ k : Nat)).toNat ++ rest) = some (.sint i, rest) := by
  rw [readHead_sized long sized (by omega), signed_of_neg neg least]

theorem readHead_writeInt {i : Int} (least : -2 ^ 63 ≤ i) (most : i < 2 ^ 64) (rest : Bytes) :
    readHead (writeInt i ++ rest) = some (intHead i, rest) := by
  unfold writeInt intHead
  split
  · dsimp only
    split
    · next small =>
      refine readHead_short ?_ rest
      rw [UInt8.toNat_ofNat_of_lt' (by omega : i.toNat < 256), Head.short?, if_pos small]
    split
    · next small => exact readHead_sized rfl rfl small rest
    split
    · next small => exact readHead_sized rfl rfl small rest
    split
    · next small => exact readHead_sized rfl rfl small rest
    · exact readHead_sized rfl rfl (by omega) rest
  · next neg =>
    have neg : i < 0 := Int.not_le.1 neg
    split
    · refine readHead_short ?_ rest
      rw [UInt8.toNat_ofNat_of_lt' (by omega : (i + 256).toNat < 256),
        short?_of_negative (by omega)]
      congr 2
      omega
    split
    · exact readHead_signed (k := 1) rfl rfl neg (by omega) rest
    split
    · exact readHead_signed (k := 2) rfl rfl neg (by omega) rest
    split
    · exact readHead_signed (k := 4) rfl rfl neg (by omega) rest
    · exact readHead_signed (k := 8) rfl rfl neg (by omega) rest

end ContractHost.Msgpack
