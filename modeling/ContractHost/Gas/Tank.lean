import ContractHost.Gas.Saturating

/-!
The gas tank of a call. A charge is admitted when the sum of what was used and what is asked for
stays within the limit; a charge that is refused leaves the sum as it was and marks the tank as
exhausted for good.
-/

namespace ContractHost.Gas

structure Tank where
  limit : UInt64
  /-- What the host's own meter read when the call started. -/
  meter : UInt64
  used : UInt64
  /-- Some charge was refused. -/
  exhausted : Bool
  deriving DecidableEq, Repr

/-- A refused charge: what was asked for and what was left. -/
structure Refusal where
  needed : UInt64
  remaining : UInt64
  deriving DecidableEq, Repr

namespace Tank

def new (limit meter : UInt64) : Tank := ⟨limit, meter, 0, false⟩

def remaining (t : Tank) : UInt64 := subSat t.limit t.used

/-- Asks for gas: the tank afterwards, and the refusal if there was one. -/
def charge (t : Tank) (units : UInt64) : Tank × Except Refusal Unit :=
  let next := addSat t.used units
  if next ≤ t.limit then ({ t with used := next }, .ok ())
  else ({ t with exhausted := true }, .error ⟨units, t.remaining⟩)

end Tank

end ContractHost.Gas
