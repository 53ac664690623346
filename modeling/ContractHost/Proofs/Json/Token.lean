import ContractHost.Json.Token

/-!
How the pieces of a JSON text are cut into tokens. Each law says that some bytes at
the front of a text give certain tokens and leave the rest of the text to be cut as
if it stood alone. A word needs that no other word goes on behind it.
-/

namespace ContractHost.Json

/-- Cuts a text into tokens, behind those already found, the latest first. -/
def lex (before : List Token) (text : Bytes) : Option (List Token) :=
  (Lexer.run ⟨before, .between⟩ text).bind Lexer.finish

theorem tokens_eq_lex (text : Bytes) : tokens text = lex [] text := rfl

theorem Lexer.run_append (l : Lexer) (front rest : Bytes) :
    l.run (front ++ rest) = (l.run front).bind (·.run rest) := by
  induction front generalizing l with
  | nil => rfl
  | cons b front ih =>
      simp only [List.cons_append, run]
      cases l.step b with
      | none => rfl
      | some next => exact ih next

def NoWord (text : Bytes) : Prop := ∀ b ∈ text.head?, isWordByte b = false

/-- Bytes give tokens, wherever no word goes on behind them. -/
def Lexed (b : Bytes) (ts : List Token) : Prop :=
  ∀ before rest, NoWord rest → lex before (b ++ rest) = lex (ts.reverse ++ before) rest

theorem isWordByte_of_space {b : UInt8} (space : isSpace b = true) : isWordByte b = false := by
  simp only [isSpace, Bool.or_eq_true, beq_iff_eq] at space
  rcases space with ((rfl | rfl) | rfl) | rfl <;> rfl

theorem lex_space {b : UInt8} (space : isSpace b = true) (before : List Token) (rest : Bytes) :
    lex before (b :: rest) = lex before rest := by
  simp [lex, Lexer.run, Lexer.step, Lexer.begin, space]

theorem lex_spaces {blanks : Bytes} (spaces : ∀ b ∈ blanks, isSpace b = true)
    (before : List Token) (rest : Bytes) : lex before (blanks ++ rest) = lex before rest := by
  induction blanks with
  | nil => rfl
  | cons b blanks ih =>
      obtain ⟨first, others⟩ := List.forall_mem_cons.1 spaces
      rw [List.cons_append, lex_space first, ih others]

theorem noWord_spaces {blanks rest : Bytes} (spaces : ∀ b ∈ blanks, isSpace b = true)
    (noWord : NoWord rest) : NoWord (blanks ++ rest) := by
  cases blanks with
  | nil => exact noWord
  | cons b blanks =>
      rintro c ⟨⟩
      exact isWordByte_of_space (spaces b List.mem_cons_self)

theorem lex_mark {b : UInt8} {t : Token}
    (mark : ∀ before, Lexer.begin before b = some ⟨t :: before, .between⟩) (before : List Token)
    (rest : Bytes) : lex before (b :: rest) = lex (t :: before) rest := by
  simp [lex, Lexer.run, Lexer.step, mark]

theorem isWordByte_of_mark {b : UInt8} {t : Token}
    (mark : ∀ before, Lexer.begin before b = some ⟨t :: before, .between⟩) :
    isWordByte b = false := by
  have start := mark []
  unfold Lexer.begin at start
  split at start
  · cases start
  split at start
  · cases start
  · next word => exact Bool.eq_false_iff.2 word

theorem noWord_of_mark {b : UInt8} {t : Token}
    (mark : ∀ before, Lexer.begin before b = some ⟨t :: before, .between⟩) (rest : Bytes) :
    NoWord (b :: rest) := by
  rintro c ⟨⟩
  exact isWordByte_of_mark mark

theorem run_word {w : Bytes} (word : ∀ b ∈ w, isWordByte b = true) (before : List Token)
    (seen rest : Bytes) :
    Lexer.run ⟨before, .word seen⟩ (w ++ rest) =
      Lexer.run ⟨before, .word (w.reverse ++ seen)⟩ rest := by
  induction w generalizing seen with
  | nil => rfl
  | cons b w ih =>
      obtain ⟨first, others⟩ := List.forall_mem_cons.1 word
      simp only [List.cons_append, Lexer.run, Lexer.step, first, if_true]
      rw [ih others, List.reverse_cons, List.append_assoc, List.singleton_append]

theorem lexed_word {w : Bytes} (filled : w ≠ []) (word : ∀ b ∈ w, isWordByte b = true) :
    Lexed w [.word w] := by
  intro before rest noWord
  obtain ⟨b, w, rfl⟩ := List.exists_cons_of_ne_nil filled
  obtain ⟨first, others⟩ := List.forall_mem_cons.1 word
  have start : Lexer.begin before b = some ⟨before, .word [b]⟩ := by
    have space : isSpace b ≠ true := fun space => by
      rw [isWordByte_of_space space] at first
      cases first
    simp [Lexer.begin, space, first]
  simp only [lex, List.cons_append, Lexer.run, Lexer.step, start, run_word others]
  cases rest with
  | nil => simp [Lexer.run, Lexer.finish]
  | cons c rest =>
      have stop : isWordByte c = false := noWord c rfl
      simp [Lexer.run, Lexer.step, stop]

/-- The contents of a string end where the string ends: a quote stands in them only behind a
backslash. -/
inductive Closed : Bytes → Prop
  | nil : Closed []
  | plain {c : UInt8} {b : Bytes} (quote : c ≠ 0x22) (backslash : c ≠ 0x5C) (rest : Closed b) :
    Closed (c :: b)
  | escape (c : UInt8) {b : Bytes} (rest : Closed b) : Closed (0x5C :: c :: b)

namespace Closed

variable {v w : Bytes}

theorem append (first : Closed v) (second : Closed w) : Closed (v ++ w) := by
  induction first with
  | nil => exact second
  | plain quote backslash _ ih => exact .plain quote backslash ih
  | escape c _ ih => exact .escape c ih

/-- Contents of a string are kept as they stand, up to the quote that ends them. -/
theorem run (closed : Closed w) (before : List Token) (seen rest : Bytes) :
    Lexer.run ⟨before, .string seen⟩ (w ++ rest) =
      Lexer.run ⟨before, .string (w.reverse ++ seen)⟩ rest := by
  induction closed generalizing seen with
  | nil => rfl
  | @plain c b quote backslash _ ih =>
      simp only [List.cons_append, Lexer.run, Lexer.step, quote, backslash, if_false]
      rw [ih, List.reverse_cons, List.append_assoc, List.singleton_append]
  | @escape c b _ ih =>
      -- the byte behind the backslash ends nothing, whichever it is
      have letter : Lexer.run ⟨before, .string seen⟩ (0x5C :: c :: (b ++ rest)) =
          Lexer.run ⟨before, .string (c :: 0x5C :: seen)⟩ (b ++ rest) := rfl
      rw [List.cons_append, List.cons_append, letter, ih]
      simp

theorem lex (closed : Closed w) (before : List Token) (rest : Bytes) :
    lex before (0x22 :: (w ++ 0x22 :: rest)) = Json.lex (.string w :: before) rest := by
  have opened : Lexer.begin before 0x22 = some ⟨before, .string []⟩ := rfl
  simp only [Json.lex, Lexer.run, Lexer.step, opened, closed.run]
  simp

end Closed

end ContractHost.Json
