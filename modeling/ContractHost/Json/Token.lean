import ContractHost.Bytes

/-!
The tokens of a JSON text. A string token keeps the bytes between its quotes as they stand, escapes
included; a word is a longest run of the bytes that numbers and the three literal names are made
of. The text is walked once, byte by byte, and what has been seen of an unfinished token is kept in
a `Mode`.
-/

namespace ContractHost.Json

inductive Token where
  | openBrace
  | closeBrace
  | openBracket
  | closeBracket
  | colon
  | comma
  | string (raw : Bytes)
  | word (raw : Bytes)
  deriving DecidableEq, Repr

def isSpace (b : UInt8) : Bool := b == 0x20 || b == 0x09 || b == 0x0A || b == 0x0D

/-- Bytes that numbers and literal names consist of. -/
def isWordByte (b : UInt8) : Bool :=
  (0x30 ≤ b && b ≤ 0x39) || (0x61 ≤ b && b ≤ 0x7A) || (0x41 ≤ b && b ≤ 0x5A) ||
    b == 0x2B || b == 0x2D || b == 0x2E

def punctuation? (b : UInt8) : Option Token :=
  if b = 0x7B then some .openBrace
  else if b = 0x7D then some .closeBrace
  else if b = 0x5B then some .openBracket
  else if b = 0x5D then some .closeBracket
  else if b = 0x3A then some .colon
  else if b = 0x2C then some .comma
  else none

/-- What has been seen of the token that is being read, the latest byte first. -/
inductive Mode where
  | between
  | word (seen : Bytes)
  | string (seen : Bytes)
  /-- Inside a string, after a backslash. -/
  | escape (seen : Bytes)

structure Lexer where
  tokens : List Token
  mode : Mode

def Lexer.start : Lexer := ⟨[], .between⟩

def Lexer.begin (tokens : List Token) (b : UInt8) : Option Lexer :=
  if isSpace b then some ⟨tokens, .between⟩
  else if isWordByte b then some ⟨tokens, .word [b]⟩
  else if b = 0x22 then some ⟨tokens, .string []⟩
  else (punctuation? b).map fun t => ⟨t :: tokens, .between⟩

def Lexer.step (l : Lexer) (b : UInt8) : Option Lexer :=
  match l.mode with
  | .between => begin l.tokens b
  | .word seen =>
    if isWordByte b then some ⟨l.tokens, .word (b :: seen)⟩
    else begin (.word seen.reverse :: l.tokens) b
  | .string seen =>
    if b = 0x22 then some ⟨.string seen.reverse :: l.tokens, .between⟩
    else if b = 0x5C then some ⟨l.tokens, .escape (b :: seen)⟩
    else some ⟨l.tokens, .string (b :: seen)⟩
  | .escape seen => some ⟨l.tokens, .string (b :: seen)⟩

def Lexer.finish (l : Lexer) : Option (List Token) :=
  match l.mode with
  | .between => some l.tokens.reverse
  | .word seen => some (.word seen.reverse :: l.tokens).reverse
  | .string _ => none
  | .escape _ => none

def Lexer.run (l : Lexer) : Bytes → Option Lexer
  | [] => some l
  | b :: rest =>
    match l.step b with
    | none => none
    | some l' => l'.run rest

def tokens (text : Bytes) : Option (List Token) := (Lexer.start.run text).bind Lexer.finish

end ContractHost.Json
