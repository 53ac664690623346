import ContractHost.Hex
import ContractHost.Sha256
import ContractHost.Text.Blank

/-!
Checksums: the SHA-256 digests that name stored code. A checksum is written as 64 lower-case
hexadecimal digits and read from digits of either case with blanks around them. Checksums are
ordered by their bytes, which is also the order of their written forms.
-/

namespace ContractHost

structure Checksum where
  digest : Bytes
  size : digest.length = 32
  deriving DecidableEq

namespace Checksum

def length : Nat := 32

def of (code : Bytes) : Checksum := ⟨Sha256.digest code, Sha256.length_digest code⟩

def toHex (c : Checksum) : String := Hex.encode c.digest

instance : ToString Checksum := ⟨toHex⟩

def describe (c : Checksum) : String := "Checksum(" ++ c.toHex ++ ")"

inductive Error where
  | hex (cause : Hex.Error)
  | wrongLength (found : Nat)
  deriving DecidableEq, Repr

def Error.message : Error → String
  | .hex cause => "checksum hex: " ++ cause.message
  | .wrongLength n => "checksum must be " ++ toString length ++ " bytes, got " ++ toString n

def ofBytes (b : Bytes) : Except Error Checksum :=
  if h : b.length = 32 then .ok ⟨b, h⟩ else .error (.wrongLength b.length)

/-- Reads a checksum from its hexadecimal form, blanks at the ends left aside. -/
def parse (text : String) : Except Error Checksum :=
  match Hex.decode (Bytes.ofText (Text.trim text)) with
  | .error e => .error (.hex e)
  | .ok b => ofBytes b

theorem ext {a b : Checksum} (h : a.digest = b.digest) : a = b := by
  cases a; cases b; cases h; rfl

instance : Ord Checksum := ⟨fun a b => compare a.digest b.digest⟩

instance : Std.TransOrd Checksum where
  eq_swap := Std.OrientedOrd.eq_swap (α := Bytes)
  isLE_trans := Std.TransOrd.isLE_trans (α := Bytes)

instance : Std.LawfulEqOrd Checksum where
  compare_self := Std.ReflOrd.compare_self (α := Bytes)
  eq_of_compare h := ext (Std.LawfulEqOrd.eq_of_compare (α := Bytes) h)

def sort (l : List Checksum) : List Checksum := l.mergeSort fun a b => (compare a b).isLE

end Checksum

end ContractHost
