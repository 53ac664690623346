/-!
A single byte shown between quotes, as error messages name it: the byte is read as a Latin-1
character, and a character that cannot be seen is written as an escape.
-/

namespace ContractHost.Text

/-- A number in lower-case hexadecimal, without leading zeros. -/
def hexNumber (n : Nat) : String := String.ofList (Nat.toDigits 16 n)

/-- A Latin-1 character that has no visible form: a control character, the no-break space or the
soft hyphen. -/
def isHidden (c : Char) : Bool :=
  let n := c.toNat
  n < 0x20 || (0x7F ≤ n && n ≤ 0xA0) || n == 0xAD

/-- The character between single quotes. Quote and backslash take a backslash, the common controls
have a letter, and every other hidden character is given by its code point. -/
def quoteChar (c : Char) : String :=
  let inner :=
    if c == '\x00' then "\\0"
    else if c == '\t' then "\\t"
    else if c == '\n' then "\\n"
    else if c == '\r' then "\\r"
    else if c == '\'' then "\\'"
    else if c == '\\' then "\\\\"
    else if isHidden c then "\\u\x7b" ++ hexNumber c.toNat ++ "\x7d"
    else String.singleton c
  "'" ++ inner ++ "'"

/-- A byte between quotes, read as a Latin-1 character. -/
def quoteByte (b : UInt8) : String := quoteChar (Char.ofNat b.toNat)

end ContractHost.Text
