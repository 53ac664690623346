import ContractHost.Bytes

/-!
Numbers in JSON texts. An integer that fits into 64 bits is itself; every other number becomes a
double. The double is found from a 64-bit significand: digits are taken into it as long as they
fit, the others only shift the exponent or are dropped, and the result is scaled by a power of ten.
-/

namespace ContractHost.Json

/-- The written parts of a number: digits are numbers below ten. -/
structure Numeral where
  negative : Bool
  whole : List Nat
  /-- The digits after the point, if there is one. -/
  fraction : Option (List Nat)
  /-- The exponent, if there is one: whether it is negative, and its digits. -/
  exponent : Option (Bool × List Nat)
  deriving DecidableEq, Repr

namespace Numeral

def digit? (b : UInt8) : Option Nat :=
  if 0x30 ≤ b ∧ b ≤ 0x39 then some (b.toNat - 0x30) else none

def takeDigits (b : Bytes) : List Nat × Bytes :=
  let run := b.takeWhile fun c => (digit? c).isSome
  (run.filterMap digit?, b.drop run.length)

def readExponent (b : Bytes) : Option (Option (Bool × List Nat)) :=
  match b with
  | [] => some none
  | e :: rest =>
    if e = 0x65 ∨ e = 0x45 then
      let (negative, rest) := match rest with
        | s :: r => if s = 0x2D then (true, r) else if s = 0x2B then (false, r) else (false, rest)
        | [] => (false, [])
      let (digits, rest) := takeDigits rest
      if digits.isEmpty ∨ !rest.isEmpty then none else some (some (negative, digits))
    else none

/-- Reads the fraction, if one starts here, and then the exponent. -/
def readFraction (negative : Bool) (whole : List Nat) (b : Bytes) : Option Numeral :=
  match b with
  | 0x2E :: rest =>
    let (digits, rest) := takeDigits rest
    if digits.isEmpty then none
    else (readExponent rest).map fun e => ⟨negative, whole, some digits, e⟩
  | _ => (readExponent b).map fun e => ⟨negative, whole, none, e⟩

/-- Reads a number: its whole part is a zero or does not start with one. -/
def read (b : Bytes) : Option Numeral :=
  let (negative, b) := match b with
    | 0x2D :: rest => (true, rest)
    | _ => (false, b)
  let (whole, rest) := takeDigits b
  match whole with
  | [] => none
  | 0 :: _ :: _ => none
  | _ => readFraction negative whole rest

/-- Takes digits into a significand as long as it stays below 2^64: the significand, and how many
digits were taken. -/
def absorb (significand taken : Nat) : List Nat → Nat × Nat
  | [] => (significand, taken)
  | d :: rest =>
    if significand * 10 + d < 18446744073709551616 then
      absorb (significand * 10 + d) (taken + 1) rest
    else (significand, taken)

def ofDigits (l : List Nat) : Nat := l.foldl (fun n d => n * 10 + d) 0

def powerOfTen (n : Nat) : Float := Float.ofScientific 1 false n

/-- Divides a double by a power of ten, in steps of 10^308. -/
def scaleDown (f : Float) (n : Nat) : Float :=
  if n ≤ 308 then f / powerOfTen n
  else if f == 0 then f
  else scaleDown (f / powerOfTen 308) (n - 308)
termination_by n
decreasing_by omega

/-- Multiplies a double by a power of ten; nothing if the result is no finite double. -/
def scaleUp (f : Float) (n : Nat) : Option Float :=
  if n ≤ 308 then
    let g := f * powerOfTen n
    if g.isInf then none else some g
  else if f == 0 then some f
  else none

def double (significand : Nat) (exponent : Int) : Option Float :=
  let f := (UInt64.ofNat significand).toFloat
  if exponent < 0 then some (scaleDown f exponent.natAbs) else scaleUp f exponent.natAbs

/-- The magnitude of a number as a double: the digits that fit, and the exponent that the others
and the written exponent leave. An exponent beyond 32 bits gives zero or nothing at once. -/
def magnitude? (n : Numeral) : Option Float :=
  let (significand, taken) := absorb 0 0 n.whole
  -- A digit dropped from the whole part raises the exponent, one taken from the fraction lowers it.
  let dropped := n.whole.length - taken
  let (significand, shifted) := absorb significand 0 (n.fraction.getD [])
  let start : Int := dropped - shifted
  match n.exponent with
  | none => double significand start
  | some (negative, digits) =>
    let e := ofDigits digits
    if e ≤ 2147483647 then double significand (if negative then start - e else start + e)
    else if significand ≠ 0 ∧ !negative then none
    else some 0

/-- What a number is taken for: an integer of 64 bits, with or without sign, or a double, given by
its bits. -/
inductive Value where
  | int (i : Int)
  | double (bits : UInt64)
  deriving DecidableEq, Repr

/-- The value of a number; nothing if it is too great for a double. A negative zero and integers
that do not fit into 64 bits are doubles. -/
def value? (n : Numeral) : Option Value :=
  let whole := ofDigits n.whole
  if n.fraction.isNone ∧ n.exponent.isNone ∧ !n.negative ∧ whole < 18446744073709551616 then
    some (.int whole)
  else if n.fraction.isNone ∧ n.exponent.isNone ∧ n.negative ∧ 0 < whole ∧
      whole ≤ 9223372036854775808 then
    some (.int (-whole))
  else n.magnitude?.map fun f => .double (if n.negative then (-f).toBits else f.toBits)

end Numeral

end ContractHost.Json
