import ContractHost.Bytes
import ContractHost.Text.Quoted

/-!
Hexadecimal text for byte strings: two digits a byte, the high digit first. Writing uses lower-case
digits; reading takes digits of either case and reports the first byte that is none.
-/

namespace ContractHost.Hex

def digit (n : Nat) : Char :=
  if n < 10 then Char.ofNat (48 + n) else Char.ofNat (87 + n)

def digits (b : UInt8) : List Char := [digit (b.toNat / 16), digit (b.toNat % 16)]

def encode (b : Bytes) : String := String.ofList (b.flatMap digits)

def value? (c : UInt8) : Option Nat :=
  let n := c.toNat
  if 48 ≤ n ∧ n ≤ 57 then some (n - 48)
  else if 97 ≤ n ∧ n ≤ 102 then some (n - 87)
  else if 65 ≤ n ∧ n ≤ 70 then some (n - 55)
  else none

inductive Error where
  | oddLength
  | invalidDigit (byte : UInt8) (position : Nat)
  deriving DecidableEq, Repr

def Error.message : Error → String
  | .oddLength => "Odd number of digits"
  | .invalidDigit b i => "Invalid character " ++ Text.quoteByte b ++ " at position " ++ toString i

/-- Reads digit pairs; `position` is where the first of them stands in the whole text. -/
def decodePairs (position : Nat) : Bytes → Except Error Bytes
  | h :: l :: rest =>
    match value? h with
    | none => .error (.invalidDigit h position)
    | some hv =>
      match value? l with
      | none => .error (.invalidDigit l (position + 1))
      | some lv =>
        match decodePairs (position + 2) rest with
        | .error e => .error e
        | .ok r => .ok (UInt8.ofNat (16 * hv + lv) :: r)
  | _ => .ok []

/-- The byte string that a text gives in hexadecimal. A length that is odd is reported before any
digit is looked at. -/
def decode (text : Bytes) : Except Error Bytes :=
  if text.length % 2 = 1 then .error .oddLength else decodePairs 0 text

end ContractHost.Hex
