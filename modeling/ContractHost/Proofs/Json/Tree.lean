import ContractHost.Json.Tree
import ContractHost.Proofs.Json.Token

/-!
How the machine builds trees from tokens.

Between bytes and trees stand the tokens. `Written` says of bytes and a tree that
there are tokens into which the bytes are cut and from which the machine builds the
tree, wherever the value stands.
-/

namespace ContractHost.Json

theorem Machine.run_append (m : Machine) (front rest : List Token) :
    m.run (front ++ rest) = (m.run front).bind (·.run rest) := by
  induction front generalizing m with
  | nil => rfl
  | cons t front ih =>
      simp only [List.cons_append, run]
      cases m.step t with
      | none => rfl
      | some next => exact ih next

/-- A text is a tree if the machine is done with the tree after its last token. -/
theorem parse_eq_some_iff {text : Bytes} {t : Tree} : Tree.parse text = some t ↔
    ∃ ts, tokens text = some ts ∧ (Machine.value []).run ts = some (.done t) := by
  have result {m : Machine} : m.result? = some t ↔ m = .done t := by
    cases m <;> simp [Machine.result?]
  simp [Tree.parse, Option.bind_eq_some_iff, result]

/-- The machine builds a tree from tokens wherever it expects a value. -/
structure Built (ts : List Token) (t : Tree) : Prop where
  run (s : List Frame) (rest : List Token) :
    (Machine.value s).run (ts ++ rest) = (Machine.complete t s).run rest
  /-- No value starts with a closing bracket. -/
  start : ∃ first others, ts = first :: others ∧ first ≠ .closeBracket

def Written (b : Bytes) (t : Tree) : Prop := ∃ ts, Lexed b ts ∧ Built ts t

theorem Written.parse {b : Bytes} {t : Tree} (w : Written b t) : Tree.parse b = some t := by
  obtain ⟨ts, lexed, built⟩ := w
  have cut : tokens b = some ts := by
    have all := lexed [] [] (by simp [NoWord])
    rw [List.append_nil, ← tokens_eq_lex] at all
    rw [all]
    simp [lex, Lexer.run, Lexer.finish]
  have ran := built.run [] []
  rw [List.append_nil] at ran
  simp [Tree.parse, cut, ran, Machine.complete, Machine.run, Machine.result?]

theorem written_word {w : Bytes} {t : Tree} (filled : w ≠ []) (word : ∀ b ∈ w, isWordByte b = true)
    (made : Tree.ofWord? w = some t) : Written w t := by
  refine ⟨_, lexed_word filled word, fun s rest => ?_, _, _, rfl, nofun⟩
  simp [Machine.run, Machine.step, Machine.startValue, made]

theorem isWordByte_of_digit {b : UInt8} (digit : (Numeral.digit? b).isSome) :
    isWordByte b = true := by
  unfold Numeral.digit? at digit
  split at digit
  · next within =>
    have first : (0x30 ≤ b && b ≤ 0x39) = true := by simpa using within
    simp [isWordByte, first]
  · cases digit

theorem written_null : Written [0x6E, 0x75, 0x6C, 0x6C] .null :=
  written_word (by decide) (by decide +kernel) rfl

theorem written_bool (b : Bool) :
    Written (if b then [0x74, 0x72, 0x75, 0x65] else [0x66, 0x61, 0x6C, 0x73, 0x65]) (.bool b) := by
  cases b <;> exact written_word (by decide) (by decide +kernel) rfl

end ContractHost.Json
