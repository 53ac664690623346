import ContractHost.Hex
import ContractHost.Wire.Doc

/-!
Documents written as JSON, either without any space or with one item a line. Strings escape only
what has to be escaped; byte strings are written as arrays of numbers.
-/

namespace ContractHost.Json

structure Layout where
  /-- What stands before an item or a closing bracket at a depth. -/
  newline : Nat → Bytes
  /-- What stands between a key and its value. -/
  colon : Bytes

def Layout.compact : Layout := ⟨fun _ => [], [0x3A]⟩

/-- Every item on a line of its own, two spaces further in than what holds it. -/
def Layout.pretty : Layout := ⟨fun depth => 0x0A :: List.replicate (2 * depth) 0x20, [0x3A, 0x20]⟩

def codes (cs : List Char) : Bytes := cs.map fun c => UInt8.ofNat c.toNat

def writeNat (n : Nat) : Bytes := codes (Nat.toDigits 10 n)

def writeInt (i : Int) : Bytes :=
  if i < 0 then 0x2D :: writeNat i.natAbs else writeNat i.natAbs

/-- A byte of a text as it stands in a string: quote, backslash and control characters are
escaped. -/
def escapeByte (b : UInt8) : Bytes :=
  if b = 0x22 then [0x5C, 0x22]
  else if b = 0x5C then [0x5C, 0x5C]
  else if b = 0x08 then [0x5C, 0x62]
  else if b = 0x09 then [0x5C, 0x74]
  else if b = 0x0A then [0x5C, 0x6E]
  else if b = 0x0C then [0x5C, 0x66]
  else if b = 0x0D then [0x5C, 0x72]
  else if b < 0x20 then [0x5C, 0x75, 0x30, 0x30] ++ codes (Hex.digits b)
  else [b]

def writeText (s : String) : Bytes := 0x22 :: (Bytes.ofText s).flatMap escapeByte ++ [0x22]

/-- Written items between brackets, in a container that stands at a depth. -/
def enclose (l : Layout) (depth : Nat) (opening closing : UInt8) (items : List Bytes) : Bytes :=
  if items.isEmpty then [opening, closing]
  else
    opening :: [0x2C].intercalate (items.map (l.newline (depth + 1) ++ ·)) ++
      (l.newline depth ++ [closing])

mutual

/-- The JSON form of a document that stands at a depth. Records hold no doubles; a double would be
written as null. -/
def writeAt (l : Layout) (depth : Nat) : Doc → Bytes
  | .null => [0x6E, 0x75, 0x6C, 0x6C]
  | .bool true => [0x74, 0x72, 0x75, 0x65]
  | .bool false => [0x66, 0x61, 0x6C, 0x73, 0x65]
  | .int i => writeInt i
  | .double _ => [0x6E, 0x75, 0x6C, 0x6C]
  | .text s => writeText s
  | .bytes b => enclose l depth 0x5B 0x5D (b.map fun x => writeNat x.toNat)
  | .list items => enclose l depth 0x5B 0x5D (itemsAt l (depth + 1) items)
  | .map entries => enclose l depth 0x7B 0x7D (entriesAt l (depth + 1) entries)

def itemsAt (l : Layout) (depth : Nat) : List Doc → List Bytes
  | [] => []
  | d :: rest => writeAt l depth d :: itemsAt l depth rest

def entriesAt (l : Layout) (depth : Nat) : List (String × Doc) → List Bytes
  | [] => []
  | (k, d) :: rest => (writeText k ++ l.colon ++ writeAt l depth d) :: entriesAt l depth rest

end

def write (l : Layout) (d : Doc) : Bytes := writeAt l 0 d

end ContractHost.Json
