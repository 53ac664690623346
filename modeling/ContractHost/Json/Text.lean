import ContractHost.Hex

/-!
What the raw contents of a JSON string stand for.

The contents are taken apart into pieces: bytes that stand for themselves, and UTF-16 code units
that were written as escapes. A pair of surrogate units makes one code point. A surrogate without
its partner still has a three-byte form, but bytes that contain one are no text; so the same byte
form serves both for texts, where it has to be UTF-8, and for byte strings, where anything goes.
-/

namespace ContractHost.Json

inductive Piece where
  /-- A byte that stands for itself. -/
  | plain (b : UInt8)
  /-- A code unit that was written as an escape. -/
  | unit (n : Nat)
  deriving DecidableEq, Repr

/-- The code unit that a backslash and a letter stand for. -/
def shortEscape? (b : UInt8) : Option Nat :=
  if b = 0x22 then some 0x22
  else if b = 0x5C then some 0x5C
  else if b = 0x2F then some 0x2F
  else if b = 0x62 then some 0x08
  else if b = 0x66 then some 0x0C
  else if b = 0x6E then some 0x0A
  else if b = 0x72 then some 0x0D
  else if b = 0x74 then some 0x09
  else none

def hexUnit? (a b c d : UInt8) : Option Nat := do
  let (a, b) := (← Hex.value? a, ← Hex.value? b)
  let (c, d) := (← Hex.value? c, ← Hex.value? d)
  return ((a * 16 + b) * 16 + c) * 16 + d

/-- The pieces of the contents of a string, put behind those already found, the latest first.
Nothing is returned for a backslash that starts no escape. -/
def piecesInto (found : List Piece) : Bytes → Option (List Piece)
  | [] => some found.reverse
  | 0x5C :: 0x75 :: a :: b :: c :: d :: rest =>
    match hexUnit? a b c d with
    | none => none
    | some n => piecesInto (.unit n :: found) rest
  | 0x5C :: e :: rest =>
    match shortEscape? e with
    | none => none
    | some n => piecesInto (.unit n :: found) rest
  | b :: rest => if b = 0x5C then none else piecesInto (.plain b :: found) rest

def pieces (raw : Bytes) : Option (List Piece) := piecesInto [] raw

/-- The byte form of a code point: UTF-8, extended to surrogates. -/
def codePointBytes (n : Nat) : Bytes :=
  if n < 0x80 then [UInt8.ofNat n]
  else if n < 0x800 then [UInt8.ofNat (0xC0 + n / 64), UInt8.ofNat (0x80 + n % 64)]
  else if n < 0x10000 then
    [UInt8.ofNat (0xE0 + n / 4096), UInt8.ofNat (0x80 + n / 64 % 64), UInt8.ofNat (0x80 + n % 64)]
  else
    [UInt8.ofNat (0xF0 + n / 262144), UInt8.ofNat (0x80 + n / 4096 % 64),
      UInt8.ofNat (0x80 + n / 64 % 64), UInt8.ofNat (0x80 + n % 64)]

/-- A code unit that is the first of a surrogate pair. -/
def isLeading (n : Nat) : Bool := 0xD800 ≤ n && n ≤ 0xDBFF

/-- A code unit that is the second of a surrogate pair. -/
def isTrailing (n : Nat) : Bool := 0xDC00 ≤ n && n ≤ 0xDFFF

def pieceBytes (done : List Bytes) : List Piece → List Bytes
  | [] => done.reverse
  | .plain b :: rest => pieceBytes ([b] :: done) rest
  | .unit n :: .unit m :: rest =>
    -- Only two escapes make a pair; a leading unit before a plain byte stands alone.
    if isLeading n && isTrailing m then
      pieceBytes (codePointBytes (0x10000 + (n - 0xD800) * 1024 + (m - 0xDC00)) :: done) rest
    else pieceBytes (codePointBytes n :: done) (.unit m :: rest)
  | .unit n :: rest => pieceBytes (codePointBytes n :: done) rest

def Piece.bytes (ps : List Piece) : Bytes := (pieceBytes [] ps).flatten

/-- A control character that was not written as an escape. -/
def Piece.isControl : Piece → Bool
  | .plain b => b < 0x20
  | .unit _ => false

def stringBytes? (raw : Bytes) : Option Bytes := (pieces raw).map Piece.bytes

/-- The contents of a string may be passed over: every escape is one, and control characters are
written as escapes. -/
def isSkippable (raw : Bytes) : Bool :=
  match pieces raw with
  | none => false
  | some ps => !ps.any Piece.isControl

def stringText? (raw : Bytes) : Option String :=
  match pieces raw with
  | none => none
  | some ps => if ps.any Piece.isControl then none else Bytes.text? (Piece.bytes ps)

end ContractHost.Json
