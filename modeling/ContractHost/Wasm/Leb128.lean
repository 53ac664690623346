import ContractHost.Bytes

/-!
Unsigned LEB128 numbers: seven bits a byte, the low ones first, and a high bit on every byte but
the last. A number has at most ten bytes and is below 2^64, so the tenth byte is 0 or 1; leading
zero groups are allowed.
-/

namespace ContractHost.Wasm.Leb128

/-- Reads a number that may have `more` bytes after its first one; the tenth byte that a number
can have is the one with none to follow. -/
def readDigits : Nat → Bytes → Option (Nat × Bytes)
  | _, [] => none
  | more, b :: rest =>
    -- The tenth byte gives the highest bit, and that bit alone.
    if more = 0 ∧ 1 < b then none
    else if b < 128 then some (b.toNat, rest)
    else (readDigits (more - 1) rest).map fun (v, r) => (b.toNat - 128 + 128 * v, r)

def read (b : Bytes) : Option (Nat × Bytes) := readDigits 9 b

theorem length_lt_of_readDigits {more : Nat} {b r : Bytes} {v : Nat}
    (h : readDigits more b = some (v, r)) : r.length < b.length := by
  induction b generalizing more v with
  | nil => simp [readDigits] at h
  | cons x rest ih =>
    unfold readDigits at h
    split at h
    · cases h
    · split at h
      · cases h; simp
      · obtain ⟨⟨w, s⟩, hw, hs⟩ := Option.map_eq_some_iff.1 h
        cases hs
        exact Nat.lt_succ_of_lt (ih hw)

theorem length_lt_of_read {b r : Bytes} {v : Nat} (h : read b = some (v, r)) :
    r.length < b.length :=
  length_lt_of_readDigits h

end ContractHost.Wasm.Leb128
