import ContractHost.Bytes

/-!
The heads of MessagePack values: a marker byte, with the number, the truth value or the length that
comes with it. Numbers and lengths have several forms; writing takes the shortest, reading takes
any.
-/

namespace ContractHost.Msgpack

/-- The last `k` bytes of a number, the highest first. -/
def writeBE : Nat → Nat → Bytes
  | 0, _ => []
  | k + 1, n => UInt8.ofNat (n / 256 ^ k) :: writeBE k n

/-- Reads `k` bytes, the highest first, behind a number already read. -/
def readBE : Nat → Nat → Bytes → Option (Nat × Bytes)
  | 0, n, b => some (n, b)
  | k + 1, n, x :: b => readBE k (n * 256 + x.toNat) b
  | _ + 1, _, [] => none

/-- The number that `k` bytes write in two's complement, given what they write without sign. -/
def signed (k n : Nat) : Int :=
  let bound := Nat.pow 256 k
  if 2 * n < bound then n else (n : Int) - bound

/-- What a value starts with. Integers keep apart whether their form has a sign. -/
inductive Head where
  | nil
  | bool (b : Bool)
  | uint (n : Nat)
  | sint (i : Int)
  | single (bits : UInt32)
  | double (bits : UInt64)
  | str (length : Nat)
  | bin (length : Nat)
  | array (length : Nat)
  | map (length : Nat)
  | ext (length : Nat)
  deriving DecidableEq, Repr

/-- The marker of values that are written in `k` further bytes of head. -/
def Head.sized? (marker : Nat) : Option (Nat × (Nat → Head)) :=
  if marker = 0xC4 then some (1, .bin)
  else if marker = 0xC5 then some (2, .bin)
  else if marker = 0xC6 then some (4, .bin)
  else if marker = 0xC7 then some (1, .ext)
  else if marker = 0xC8 then some (2, .ext)
  else if marker = 0xC9 then some (4, .ext)
  else if marker = 0xCA then some (4, fun n => .single (UInt32.ofNat n))
  else if marker = 0xCB then some (8, fun n => .double (UInt64.ofNat n))
  else if marker = 0xCC then some (1, .uint)
  else if marker = 0xCD then some (2, .uint)
  else if marker = 0xCE then some (4, .uint)
  else if marker = 0xCF then some (8, .uint)
  else if marker = 0xD0 then some (1, fun n => .sint (signed 1 n))
  else if marker = 0xD1 then some (2, fun n => .sint (signed 2 n))
  else if marker = 0xD2 then some (4, fun n => .sint (signed 4 n))
  else if marker = 0xD3 then some (8, fun n => .sint (signed 8 n))
  else if marker = 0xD9 then some (1, .str)
  else if marker = 0xDA then some (2, .str)
  else if marker = 0xDB then some (4, .str)
  else if marker = 0xDC then some (2, .array)
  else if marker = 0xDD then some (4, .array)
  else if marker = 0xDE then some (2, .map)
  else if marker = 0xDF then some (4, .map)
  else none

def Head.short? (marker : Nat) : Option Head :=
  if marker < 0x80 then some (.uint marker)
  else if marker < 0x90 then some (.map (marker - 0x80))
  else if marker < 0xA0 then some (.array (marker - 0x90))
  else if marker < 0xC0 then some (.str (marker - 0xA0))
  else if marker = 0xC0 then some .nil
  else if marker = 0xC2 then some (.bool false)
  else if marker = 0xC3 then some (.bool true)
  else if marker = 0xD4 then some (.ext 1)
  else if marker = 0xD5 then some (.ext 2)
  else if marker = 0xD6 then some (.ext 4)
  else if marker = 0xD7 then some (.ext 8)
  else if marker = 0xD8 then some (.ext 16)
  else if 0xE0 ≤ marker then some (.sint ((marker : Int) - 256))
  else none

def readHead : Bytes → Option (Head × Bytes)
  | [] => none
  | m :: rest =>
    match Head.short? m.toNat with
    | some h => some (h, rest)
    | none =>
      match Head.sized? m.toNat with
      | none => none
      | some (k, make) => (readBE k 0 rest).map fun (n, r) => (make n, r)

/-- The shortest form of an integer; one that is not negative takes a form without sign. -/
def writeInt (i : Int) : Bytes :=
  if 0 ≤ i then
    let n := i.toNat
    if n < 0x80 then [UInt8.ofNat n]
    else if n < 0x100 then 0xCC :: writeBE 1 n
    else if n < 0x10000 then 0xCD :: writeBE 2 n
    else if n < 0x100000000 then 0xCE :: writeBE 4 n
    else 0xCF :: writeBE 8 n
  else if -32 ≤ i then [UInt8.ofNat (i + 256).toNat]
  else if -0x80 ≤ i then 0xD0 :: writeBE 1 (i + 0x100).toNat
  else if -0x8000 ≤ i then 0xD1 :: writeBE 2 (i + 0x10000).toNat
  else if -0x80000000 ≤ i then 0xD2 :: writeBE 4 (i + 0x100000000).toNat
  else 0xD3 :: writeBE 8 (i + 0x10000000000000000).toNat

def writeStrHead (n : Nat) : Bytes :=
  if n < 32 then [UInt8.ofNat (0xA0 + n)]
  else if n < 0x100 then 0xD9 :: writeBE 1 n
  else if n < 0x10000 then 0xDA :: writeBE 2 n
  else 0xDB :: writeBE 4 n

def writeBinHead (n : Nat) : Bytes :=
  if n < 0x100 then 0xC4 :: writeBE 1 n
  else if n < 0x10000 then 0xC5 :: writeBE 2 n
  else 0xC6 :: writeBE 4 n

def writeArrayHead (n : Nat) : Bytes :=
  if n < 16 then [UInt8.ofNat (0x90 + n)]
  else if n < 0x10000 then 0xDC :: writeBE 2 n
  else 0xDD :: writeBE 4 n

def writeMapHead (n : Nat) : Bytes :=
  if n < 16 then [UInt8.ofNat (0x80 + n)]
  else if n < 0x10000 then 0xDE :: writeBE 2 n
  else 0xDF :: writeBE 4 n

end ContractHost.Msgpack
