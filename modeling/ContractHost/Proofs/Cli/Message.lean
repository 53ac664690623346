import ContractHost.Cli.Run
import Mathlib.Data.List.Infix
import Mathlib.Tactic.SplitIfs

/-!
Which exit code the line about a failure gets.

The code is found by looking for words in the line, and a line may quote a path and what
the operating system says. So for each kind of line it has to be told in which of its
parts a word can stand: never across two of them, since no word has a colon in it.
-/

namespace ContractHost.Cli

theorem occursIn_iff {part text : List Char} : occursIn part text = true ↔ part <:+: text := by
  induction text with
  | nil => simp [occursIn]
  | cons c rest ih => simp [occursIn, ih, List.infix_cons_iff]

theorem prefix_append_cons {part front rest : List Char} {c : Char} (lacks : c ∉ part) :
    part <+: front ++ c :: rest ↔ part <+: front := by
  refine ⟨fun ⟨more, whole⟩ => ?_, fun short => short.trans (List.prefix_append _ _)⟩
  obtain ⟨between, rfl, -⟩ | ⟨beyond, rfl, next⟩ := List.append_eq_append_iff.1 whole
  · exact List.prefix_append _ _
  · cases beyond with
    | nil => rw [List.append_nil]
    | cons x beyond =>
        obtain ⟨rfl, -⟩ := List.cons.inj next
        exact absurd (List.mem_append_right _ List.mem_cons_self) lacks

/-- What stands in a text and lacks a character stands before or behind that character. -/
theorem infix_append_cons {part front rest : List Char} {c : Char} (lacks : c ∉ part) :
    part <:+: front ++ c :: rest ↔ part <:+: front ∨ part <:+: rest := by
  induction front with
  | nil =>
      have start : part <+: [] ++ c :: rest ↔ part <+: [] := prefix_append_cons lacks
      rw [List.nil_append] at start
      rw [List.nil_append, List.infix_cons_iff, start, List.prefix_nil, List.infix_nil]
  | cons x front ih =>
      have start : part <+: (x :: front) ++ c :: rest ↔ part <+: x :: front :=
        prefix_append_cons lacks
      rw [List.cons_append] at start
      rw [List.cons_append, List.infix_cons_iff, start, ih, List.infix_cons_iff, or_assoc]

def Names (part text : String) : Prop := part.toList <:+: text.toList

instance (part text : String) : Decidable (Names part text) :=
  inferInstanceAs (Decidable (_ <:+: _))

/-- The words by which a failure of the input is known. -/
def hints : List String := ["read ", "parse ", "invalid "]

/-- The words that are looked for in a line. -/
def marks : List String := "not found" :: hints

/-- What comes from the files of the store says so at its beginning, and nothing else counts. -/
theorem exitCode_storage (action : String) (e : OsError) :
    exitCode (StoreError.storage action e).message = 1 := by
  have line : (StoreError.storage action e).message =
      "storage: " ++ action ++ ": " ++ e.message := rfl
  have start : "storage:".toList.isPrefixOf (StoreError.storage action e).message.toList = true := by
    rw [line]
    simp
  rw [exitCode, if_pos start]

/-- Any other line is known by the words in it. -/
theorem exitCode_of_words {message : String} (first : message.toList.head? ≠ some 's') :
    exitCode message = if Names "not found" message then 3
      else if ∃ hint ∈ hints, Names hint message then 2 else 1 := by
  have start : "storage:".toList.isPrefixOf message.toList = false := by
    cases chars : message.toList with
    | nil => rfl
    | cons c rest =>
        have other : 's' ≠ c := by
          rintro rfl
          exact first (by rw [chars, List.head?_cons])
        simp [List.isPrefixOf, other]
  have words : (∃ hint ∈ hints, Names hint message) ↔ (occursIn "read ".toList message.toList ||
      occursIn "parse ".toList message.toList || occursIn "invalid ".toList message.toList) = true := by
    simp [hints, Names, occursIn_iff, or_assoc]
  simp only [exitCode, start, Bool.false_eq_true, if_false, words]
  congr 1
  exact propext occursIn_iff

theorem exitCode_missing (c : Checksum) : exitCode (StoreError.notFound c).message = 3 := by
  have line : (StoreError.notFound c).message = "code not found: " ++ c.toHex := rfl
  have words : Names "not found" (StoreError.notFound c).message := by
    rw [line]
    simp [Names, List.infix_cons_iff, List.cons_prefix_cons]
  rw [exitCode_of_words (by rw [line]; simp), if_pos words]

theorem exitCode_empty :
    exitCode (StoreError.invalidInput "bytecode must not be empty").message = 2 := by
  decide +kernel

/-- The line about a file or the standard input names reading, so that it has to be told only
whether the system says that something was not found. -/
theorem exitCode_input {what : String} (known : what = "read stdin: " ∨ what = "read file: ")
    (e : OsError) :
    exitCode (what ++ e.message) = if Names "not found" e.message then 3 else 2 := by
  have start : (what ++ e.message).toList.head? ≠ some 's' := by
    rcases known with rfl | rfl <;> simp
  have missing : Names "not found" (what ++ e.message) ↔ Names "not found" e.message := by
    rcases known with rfl | rfl <;> simp [Names, List.infix_cons_iff, List.cons_prefix_cons]
  have reading : ∃ hint ∈ hints, Names hint (what ++ e.message) := by
    refine ⟨"read ", by simp [hints], ?_⟩
    rcases known with rfl | rfl <;> simp [Names, List.infix_cons_iff, List.cons_prefix_cons]
  rw [exitCode_of_words start, if_pos reading]
  simp only [missing]

/-- In the line about a file that could not be written, a word stands in the path or in what the
system says. -/
theorem names_write {mark : String} (known : mark ∈ marks) (path : String) (e : OsError) :
    Names mark ("write " ++ path ++ ": " ++ e.message) ↔ Names mark path ∨ Names mark e.message := by
  simp only [marks, hints, List.mem_cons, List.not_mem_nil, or_false] at known
  have line : ("write " ++ path ++ ": " ++ e.message).toList =
      'w' :: 'r' :: 'i' :: 't' :: 'e' :: ' ' ::
        (path.toList ++ ':' :: (' ' :: e.message.toList)) := by simp
  rw [Names, line]
  rcases known with rfl | rfl | rfl | rfl <;>
    simp [Names, infix_append_cons, List.infix_cons_iff, List.cons_prefix_cons]

theorem exitCode_write (path : String) (e : OsError) :
    exitCode ("write " ++ path ++ ": " ++ e.message) =
      if Names "not found" path ∨ Names "not found" e.message then 3
      else if ∃ hint ∈ hints, Names hint path ∨ Names hint e.message then 2 else 1 := by
  have start : ("write " ++ path ++ ": " ++ e.message).toList.head? ≠ some 's' := by simp
  have hint : (∃ hint ∈ hints, Names hint ("write " ++ path ++ ": " ++ e.message)) ↔
      ∃ hint ∈ hints, Names hint path ∨ Names hint e.message :=
    exists_congr fun _ => and_congr_right fun known =>
      names_write (List.mem_cons_of_mem _ known) path e
  have missing : Names "not found" ("write " ++ path ++ ": " ++ e.message) ↔
      Names "not found" path ∨ Names "not found" e.message := names_write List.mem_cons_self path e
  rw [exitCode_of_words start]
  simp only [missing, hint]

theorem not_names_of_lacks {text : String} (lacks : 'f' ∉ text.toList) :
    ¬ Names "not found" text :=
  fun names => lacks (names.subset (by decide))

theorem lacks_number (n : Nat) : 'f' ∉ (toString n).toList := by
  intro mem
  rw [Nat.toString_eq_repr, Nat.toList_repr] at mem
  cases Nat.isDigit_of_mem_toDigits (by decide) (by decide) mem

/-- A byte between quotes is too short for the words for what is missing, unless it is given by a
number, and there is no o in that. -/
theorem not_names_quoteByte (b : UInt8) : ¬ Names "not found" (Text.quoteByte b) := by
  have bytes : ∀ n < 256, (Char.ofNat n).toNat < 256 := by decide +kernel
  have byte := bytes b.toNat b.toNat_lt
  intro names
  have long : 9 ≤ (Text.quoteChar (.ofNat b.toNat)).toList.length := names.length_le
  have letter : 'o' ∈ (Text.quoteChar (.ofNat b.toNat)).toList := names.subset (by decide)
  have digits : ∀ n < 256, 'o' ∉ Nat.toDigits 16 n := by decide +kernel
  simp only [Text.quoteChar, String.toList_append] at long letter
  split_ifs at long letter
  iterate 6
    · simp at long
  · simp only [Text.hexNumber, String.toList_append, String.toList_ofList, List.mem_append] at letter
    simp [digits _ byte] at letter
  · simp at long

theorem not_names_checksum (e : Checksum.Error) :
    ¬ Names "not found" ("parse checksum: " ++ (StoreError.ofChecksum e).message) := by
  cases e with
  | wrongLength n =>
      have line : (StoreError.ofChecksum (.wrongLength n)).message = "invalid input: " ++
          ("checksum must be " ++ toString Checksum.length ++ " bytes, got " ++ toString n) := rfl
      have rest : 'f' ∉ ("parse checksum: " ++ ("invalid input: " ++
          ("checksum must be " ++ toString Checksum.length ++ " bytes, got "))).toList := by
        decide +kernel
      refine not_names_of_lacks ?_
      simp only [line, String.toList_append, List.mem_append, lacks_number, or_false] at rest ⊢
      exact rest
  | hex cause =>
      cases cause with
      | oddLength => decide +kernel
      | invalidDigit b i =>
          -- no part of the line between the quotes has the words, and none of them has a quote
          obtain ⟨inner, quoted⟩ : ∃ inner, Text.quoteByte b = "'" ++ inner ++ "'" := ⟨_, rfl⟩
          have line : (StoreError.ofChecksum (.hex (.invalidDigit b i))).message =
              "invalid input: " ++ ("checksum hex: " ++ ("Invalid character " ++
                Text.quoteByte b ++ " at position " ++ toString i)) := rfl
          have chars : ("parse checksum: " ++
              (StoreError.ofChecksum (.hex (.invalidDigit b i))).message).toList =
              ("parse checksum: ".toList ++ ("invalid input: ".toList ++ ("checksum hex: ".toList ++
                "Invalid character ".toList))) ++
                '\'' :: (inner.toList ++ '\'' :: (" at position " ++ toString i).toList) := by
            have quote : "'".toList = ['\''] := rfl
            rw [line, quoted]
            simp only [String.toList_append, quote, List.append_assoc, List.cons_append,
              List.nil_append]
          rw [Names, chars, infix_append_cons (by simp), infix_append_cons (by simp)]
          rintro (front | inside | behind)
          · exact absurd front (by decide +kernel)
          · refine not_names_quoteByte b (inside.trans ?_)
            rw [quoted, String.toList_append, String.toList_append]
            exact List.infix_append _ _ _
          · refine not_names_of_lacks ?_ behind
            rw [String.toList_append, List.mem_append, not_or]
            exact ⟨by decide +kernel, lacks_number i⟩

theorem exitCode_checksum (e : Checksum.Error) :
    exitCode ("parse checksum: " ++ (StoreError.ofChecksum e).message) = 2 := by
  have parsing : ∃ hint ∈ hints,
      Names hint ("parse checksum: " ++ (StoreError.ofChecksum e).message) := by
    refine ⟨"parse ", by simp [hints], ?_⟩
    simp [Names, List.infix_cons_iff, List.cons_prefix_cons]
  have start : ("parse checksum: " ++ (StoreError.ofChecksum e).message).toList.head? ≠ some 's' := by
    simp
  rw [exitCode_of_words start, if_neg (not_names_checksum e), if_pos parsing]

end ContractHost.Cli
