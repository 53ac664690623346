import ContractHost.Gas.Saturating
import ContractHost.Wire.Codec

/-!
Prices: a rate per byte given as a fraction, and the price of one request to the host, which is a
flat part and a part per byte. Both stop at the greatest 64-bit quantity.
-/

namespace ContractHost.Gas

structure Rate where
  numerator : UInt64
  denominator : UInt64
  deriving DecidableEq, Repr

namespace Rate

def zero : Rate := ⟨0, 1⟩

/-- The price of `n` bytes, rounded down. A rate whose denominator is zero prices any bytes at the
greatest quantity. -/
def mulFloor (r : Rate) (n : UInt64) : UInt64 :=
  if n = 0 ∨ r.numerator = 0 then 0
  else if r.denominator = 0 then greatest
  else ofNatSat (n.toNat * r.numerator.toNat / r.denominator.toNat)

end Rate

instance : Wire Rate where
  shape := .record <|
    .cons "numerator" (Wire.shape UInt64) none <|
    .cons "denominator" (Wire.shape UInt64) none .nil
  toDoc r := .map [("numerator", Wire.toDoc r.numerator), ("denominator", Wire.toDoc r.denominator)]
  ofDoc?
    | .map [(_, numerator), (_, denominator)] => do
      return ⟨← Wire.ofDoc? numerator, ← Wire.ofDoc? denominator⟩
    | _ => none

/-- What a request to the host costs: a flat part and a part for each byte it touches. -/
structure Costs where
  op : UInt64
  perByte : UInt64
  deriving DecidableEq, Repr

def Costs.of (c : Costs) (bytes : Nat) : UInt64 :=
  addSat c.op (mulSat c.perByte (ofNatSat bytes))

end ContractHost.Gas
