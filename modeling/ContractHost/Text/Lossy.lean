import ContractHost.Bytes

/-!
Text out of bytes that need not be UTF-8. Where the bytes stop being UTF-8, the longest part that
could have begun a character, or else a single byte, is replaced by one replacement character.
-/

namespace ContractHost.Text

/-- The length of the form of a character that starts with a byte, the values its second byte may
have, and the bits that the byte itself gives. -/
def leadByte? (b : UInt8) : Option (Nat × UInt8 × UInt8 × Nat) :=
  if b < 0x80 then some (1, 0x80, 0xBF, b.toNat)
  else if b < 0xC2 then none
  else if b < 0xE0 then some (2, 0x80, 0xBF, b.toNat - 0xC0)
  else if b = 0xE0 then some (3, 0xA0, 0xBF, 0)
  else if b = 0xED then some (3, 0x80, 0x9F, 0x0D)
  else if b < 0xF0 then some (3, 0x80, 0xBF, b.toNat - 0xE0)
  else if b = 0xF0 then some (4, 0x90, 0xBF, 0)
  else if b < 0xF4 then some (4, 0x80, 0xBF, b.toNat - 0xF0)
  else if b = 0xF4 then some (4, 0x80, 0x8F, 4)
  else none

inductive Partial where
  /-- Nothing. -/
  | between
  /-- How many bytes are missing, the values the next one may have, and the bits so far. -/
  | inside (missing : Nat) (low high : UInt8) (bits : Nat)

def replacement : Char := '\uFFFD'

def startChar (done : List Char) (b : UInt8) : List Char × Partial :=
  match leadByte? b with
  | none => (replacement :: done, .between)
  | some (1, _, _, bits) => (Char.ofNat bits :: done, .between)
  | some (n, low, high, bits) => (done, .inside (n - 1) low high bits)

def readByte (state : List Char × Partial) (b : UInt8) : List Char × Partial :=
  match state with
  | (done, .between) => startChar done b
  | (done, .inside missing low high bits) =>
    if low ≤ b ∧ b ≤ high then
      let bits := bits * 64 + (b.toNat - 0x80)
      if missing ≤ 1 then (Char.ofNat bits :: done, .between)
      else (done, .inside (missing - 1) 0x80 0xBF bits)
    else startChar (replacement :: done) b

/-- The text of a byte string, with replacement characters where it is no text. -/
def lossy (b : Bytes) : String :=
  let (done, rest) := b.foldl readByte ([], .between)
  String.ofList (match rest with
    | .between => done
    | .inside .. => replacement :: done).reverse

end ContractHost.Text
