/-!
Decimal numbers of 64 bits in texts: digits, perhaps with a plus sign before them.
-/

namespace ContractHost.Text

/-- Appends a digit to a number, if it is a digit and the number stays below 2^64. -/
def appendDigit (n : Option Nat) (c : Char) : Option Nat :=
  match n with
  | none => none
  | some n =>
    if c.isDigit && n * 10 + (c.toNat - 48) < 18446744073709551616 then
      some (n * 10 + (c.toNat - 48))
    else none

/-- The number that digits write; there has to be one at least. -/
def ofDigits? : List Char → Option UInt64
  | [] => none
  | cs => (cs.foldl appendDigit (some 0)).map UInt64.ofNat

def parseUInt64? (s : String) : Option UInt64 :=
  match s.toList with
  | '+' :: cs => ofDigits? cs
  | cs => ofDigits? cs

end ContractHost.Text
