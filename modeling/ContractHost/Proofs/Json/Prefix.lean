import ContractHost.Proofs.Json.Writer

/-!
The front of a written object is no JSON text.

What starts with an opening and ends with a closing brace cannot be cut short
(`parse_front`): where the front ends between tokens, the machine is done with it
before the closing brace comes, and no token may follow; where it ends within a word,
that word would have to be the whole text.
-/

namespace ContractHost.Json

namespace Lexer

variable {l l' : Lexer} {b : UInt8} {text : Bytes} {before ts : List Token}

theorem tokens_begin (begun : begin before b = some l) : before <:+ l.tokens := by
  unfold begin at begun
  split at begun
  · cases begun
    exact List.suffix_refl before
  split at begun
  · cases begun
    exact List.suffix_refl before
  split at begun
  · cases begun
    exact List.suffix_refl before
  · obtain ⟨t, -, rfl⟩ := Option.map_eq_some_iff.1 begun
    exact List.suffix_cons t before

theorem tokens_step (stepped : l.step b = some l') : l.tokens <:+ l'.tokens := by
  unfold step at stepped
  split at stepped
  · exact tokens_begin stepped
  · split at stepped
    · cases stepped
      exact List.suffix_refl l.tokens
    · exact (List.suffix_cons _ _).trans (tokens_begin stepped)
  · split at stepped
    · cases stepped
      exact List.suffix_cons _ l.tokens
    split at stepped
    · cases stepped
      exact List.suffix_refl l.tokens
    · cases stepped
      exact List.suffix_refl l.tokens
  · cases stepped
    exact List.suffix_refl l.tokens

theorem tokens_run (ran : l.run text = some l') : l.tokens <:+ l'.tokens := by
  induction text generalizing l with
  | nil =>
      cases ran
      exact List.suffix_refl _
  | cons b rest ih =>
      simp only [run] at ran
      split at ran
      · cases ran
      · next stepped => exact (tokens_step stepped).trans (ih ran)

/-- A closing brace that ends a text is a token of its own: inside a string the text would not be
at its end. -/
theorem finish_closeBrace (stepped : l.step 0x7D = some l') (finished : l'.finish = some ts) :
    ∃ last, ts = l.tokens.reverse ++ last ++ [.closeBrace] := by
  have closes (before : List Token) : begin before 0x7D = some ⟨.closeBrace :: before, .between⟩ :=
    rfl
  unfold step at stepped
  split at stepped
  · rw [closes] at stepped
    cases stepped
    cases finished
    exact ⟨[], by simp⟩
  · next seen _ =>
    have other : isWordByte 0x7D = false := rfl
    rw [other, if_neg Bool.false_ne_true, closes] at stepped
    cases stepped
    cases finished
    exact ⟨[.word seen.reverse], by simp⟩
  · rw [if_neg (by decide), if_neg (by decide)] at stepped
    cases stepped
    cases finished
  · cases stepped
    cases finished

end Lexer

namespace Machine

variable {m m' : Machine} {t u : Tree} {x : Token} {w : Bytes} {s : List Frame}

theorem complete_ne_value (t : Tree) (s s' : List Frame) : complete t s ≠ .value s' := by
  rcases s with _ | ⟨_ | _, s⟩ <;> exact nofun

theorem eq_nil_of_complete (done : complete t s = .done u) : s = [] := by
  rcases s with _ | ⟨_ | _, s⟩
  · rfl
  · cases done
  · cases done

/-- The machine never comes back to where it started. -/
theorem step_ne_start (m : Machine) (x : Token) : m.step x ≠ some (.value []) := by
  have start (s : List Frame) : startValue s x ≠ some (.value []) := by
    intro started
    unfold startValue at started
    split at started
    · cases started
    · cases started
    · exact complete_ne_value _ _ _ (Option.some.inj started)
    · obtain ⟨t, -, same⟩ := Option.map_eq_some_iff.1 started
      exact complete_ne_value _ _ _ same
    · cases started
  intro stepped
  unfold step at stepped
  split at stepped
  case h_1 | h_3 => exact start _ stepped
  case h_4 | h_7 | h_8 | h_9 | h_10 | h_12 => cases stepped
  all_goals exact complete_ne_value _ _ _ (Option.some.inj stepped)

theorem run_ne_start {ts : List Token} (filled : ts ≠ []) (m : Machine) :
    m.run ts ≠ some (.value []) := by
  induction ts generalizing m with
  | nil => exact absurd rfl filled
  | cons x rest ih =>
      intro ran
      simp only [run] at ran
      split at ran
      · cases ran
      next next stepped =>
      cases rest with
      | nil =>
          cases ran
          exact step_ne_start m x stepped
      | cons y rest => exact ih (List.cons_ne_nil y rest) next ran

theorem eq_start_of_word (stepped : m.step (.word w) = some (.done u)) : m = .value [] := by
  have start {s : List Frame} (started : startValue s (.word w) = some (.done u)) : s = [] := by
    obtain ⟨t, -, same⟩ := Option.map_eq_some_iff.1 started
    exact eq_nil_of_complete same
  cases m with
  | value s => rw [start stepped]
  | firstItem s => cases (start stepped : Frame.array [] :: s = [])
  | _ => cases stepped

theorem run_done (u : Tree) (x : Token) (rest : List Token) : (done u).run (x :: rest) = none := by
  cases x <;> rfl

end Machine

theorem run_ne_done {front rest : List Token} {t u : Tree} (filled : rest ≠ [])
    (done : (Machine.value []).run front = some (.done t)) :
    (Machine.value []).run (front ++ rest) ≠ some (.done u) := by
  obtain ⟨x, others, rfl⟩ := List.exists_cons_of_ne_nil filled
  rw [Machine.run_append, done]
  simp [Machine.run_done]

theorem run_word_ne_done {front : List Token} {w : Bytes} {u : Tree} (filled : front ≠ []) :
    (Machine.value []).run (front ++ [.word w]) ≠ some (.done u) := by
  intro done
  rw [Machine.run_append] at done
  obtain ⟨m, ran, last⟩ := Option.bind_eq_some_iff.1 done
  have stepped : m.step (.word w) = some (.done u) := by
    simp only [Machine.run] at last
    split at last
    · cases last
    · next stepped => rw [stepped, Option.some.inj last]
  rw [Machine.eq_start_of_word stepped] at ran
  exact Machine.run_ne_start filled _ ran

/-- The tokens of a text that ends with a closing brace: those of any front, and the brace. -/
theorem tokens_closeBrace {front rest : Bytes} {l : Lexer} {ts : List Token}
    (lexed : Lexer.start.run front = some l) (cut : tokens (front ++ (rest ++ [0x7D])) = some ts) :
    ∃ more, ts = l.tokens.reverse ++ more ++ [.closeBrace] := by
  obtain ⟨l₂, all, finished⟩ := Option.bind_eq_some_iff.1 cut
  rw [Lexer.run_append, lexed, Option.bind_some, Lexer.run_append] at all
  obtain ⟨l₁, middle, last⟩ := Option.bind_eq_some_iff.1 all
  obtain ⟨found, suffix⟩ := Lexer.tokens_run middle
  simp only [Lexer.run] at last
  split at last
  · cases last
  next stepped =>
  cases last
  obtain ⟨word, rfl⟩ := Lexer.finish_closeBrace stepped finished
  exact ⟨found.reverse ++ word, by simp [← suffix]⟩

theorem Lexer.tokens_ne_nil_of_word {front rest inner w : Bytes} {l : Lexer}
    (lexed : Lexer.run ⟨[], .between⟩ front = some l) (mode : l.mode = .word w)
    (brace : front ++ rest = 0x7B :: inner) : l.tokens ≠ [] := by
  cases front with
  | nil =>
      cases lexed
      cases mode
  | cons b front =>
      obtain rfl : b = 0x7B := (List.cons.inj brace).1
      have behind : Lexer.run ⟨[.openBrace], .between⟩ front = some l := lexed
      intro none
      have found := Lexer.tokens_run behind
      rw [none, List.suffix_nil] at found
      cases found

/-- A text in braces cannot be cut short: no front of it is a text. -/
theorem parse_front {front rest inner : Bytes} {t : Tree}
    (parsed : Tree.parse (front ++ rest) = some t)
    (braces : front ++ rest = 0x7B :: inner ++ [0x7D]) (short : rest ≠ []) :
    Tree.parse front = none := by
  refine Option.eq_none_iff_forall_ne_some.2 fun u read => ?_
  obtain ⟨ts, cut, done⟩ := parse_eq_some_iff.1 read
  obtain ⟨all, cutAll, doneAll⟩ := parse_eq_some_iff.1 parsed
  obtain ⟨l, lexed, finished⟩ := Option.bind_eq_some_iff.1 cut
  obtain ⟨middle, rfl⟩ : ∃ middle, rest = middle ++ [0x7D] := by
    obtain ⟨middle, b, rfl⟩ := (List.eq_nil_or_concat rest).resolve_left short
    rw [List.concat_eq_append, ← List.append_assoc] at braces
    obtain ⟨-, same⟩ := List.append_inj' braces rfl
    exact ⟨middle, by rw [List.concat_eq_append, same]⟩
  obtain ⟨more, rfl⟩ := tokens_closeBrace lexed cutAll
  rw [List.append_assoc] at doneAll
  unfold Lexer.finish at finished
  split at finished
  · cases finished
    exact run_ne_done (by simp) done doneAll
  · next mode =>
    cases finished
    have opened := Lexer.tokens_ne_nil_of_word lexed mode braces
    rw [List.reverse_cons] at done
    exact run_word_ne_done (List.reverse_ne_nil_iff.2 opened) done
  · cases finished
  · cases finished

theorem enclose_eq (l : Layout) (depth : Nat) (opening closing : UInt8) (items : List Bytes) :
    ∃ inner, enclose l depth opening closing items = opening :: inner ++ [closing] := by
  unfold enclose
  split
  · exact ⟨[], rfl⟩
  · exact ⟨[0x2C].intercalate (items.map (l.newline (depth + 1) ++ ·)) ++ l.newline depth, by simp⟩

theorem parse_take_write {l : Layout} (blank : l.Blank) (entries : List (String × Doc)) {k : Nat}
    (short : k < (write l (.map entries)).length) :
    Tree.parse ((write l (.map entries)).take k) = none := by
  obtain ⟨inner, braces⟩ := enclose_eq l 0 0x7B 0x7D (entriesAt l 1 entries)
  have whole : (write l (.map entries)).take k ++ (write l (.map entries)).drop k =
      write l (.map entries) := List.take_append_drop k _
  have parsed : Tree.parse ((write l (.map entries)).take k ++ (write l (.map entries)).drop k) =
      some (treeOf (.map entries)) := by rw [whole, parse_write blank]
  refine parse_front parsed (whole.trans (by rw [write, writeAt, braces])) ?_
  rw [ne_eq, List.drop_eq_nil_iff]
  omega

end ContractHost.Json
