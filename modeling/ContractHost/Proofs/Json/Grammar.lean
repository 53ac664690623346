import ContractHost.Proofs.Json.Number
import ContractHost.Proofs.Json.Tree

/-!
The grammar of JSON texts. What it has is parsed, and as the tree that it says
(`Tree.Padded.parse`).

The grammar speaks of bytes alone: of no tokens, and of no machine. It leaves the
contents of strings as they stand, so a tree of it is a text only if its strings are.
-/

namespace ContractHost.Json

def Blanks (b : Bytes) : Prop := ∀ c ∈ b, c = 0x20 ∨ c = 0x09 ∨ c = 0x0A ∨ c = 0x0D

mutual

inductive Tree.Spelled : Tree → Bytes → Prop
  | null : Tree.Spelled .null [0x6E, 0x75, 0x6C, 0x6C]
  | true : Tree.Spelled (.bool true) [0x74, 0x72, 0x75, 0x65]
  | false : Tree.Spelled (.bool false) [0x66, 0x61, 0x6C, 0x73, 0x65]
  | number {n : Numeral} {b : Bytes} (numeral : n.Spelled b) : Tree.Spelled (.number n) b
  | string {raw : Bytes} (closed : Closed raw) :
    Tree.Spelled (.string raw) (0x22 :: (raw ++ [0x22]))
  | emptyArray {blanks : Bytes} (between : Blanks blanks) :
    Tree.Spelled (.array []) (0x5B :: (blanks ++ [0x5D]))
  | array {items : List Tree} {b : Bytes} (between : Items items b) :
    Tree.Spelled (.array items) (0x5B :: (b ++ [0x5D]))
  | emptyObject {blanks : Bytes} (between : Blanks blanks) :
    Tree.Spelled (.object []) (0x7B :: (blanks ++ [0x7D]))
  | object {members : List (Bytes × Tree)} {b : Bytes} (between : Members members b) :
    Tree.Spelled (.object members) (0x7B :: (b ++ [0x7D]))

inductive Tree.Padded : Tree → Bytes → Prop
  | mk {t : Tree} {front b back : Bytes} (before : Blanks front) (value : Tree.Spelled t b)
    (after : Blanks back) : Tree.Padded t (front ++ (b ++ back))

inductive Items : List Tree → Bytes → Prop
  | one {t : Tree} {b : Bytes} (value : Tree.Padded t b) : Items [t] b
  | more {ts : List Tree} {t : Tree} {front b : Bytes} (before : Items ts front)
    (value : Tree.Padded t b) : Items (ts ++ [t]) (front ++ 0x2C :: b)

inductive Member : Bytes × Tree → Bytes → Prop
  | mk {key front back b : Bytes} {t : Tree} (before : Blanks front) (closed : Closed key)
    (after : Blanks back) (value : Tree.Padded t b) :
    Member (key, t) (front ++ 0x22 :: (key ++ 0x22 :: (back ++ 0x3A :: b)))

inductive Members : List (Bytes × Tree) → Bytes → Prop
  | one {m : Bytes × Tree} {b : Bytes} (member : Member m b) : Members [m] b
  | more {ms : List (Bytes × Tree)} {m : Bytes × Tree} {front b : Bytes} (before : Members ms front)
    (member : Member m b) : Members (ms ++ [m]) (front ++ 0x2C :: b)

end

theorem isSpace_iff {c : UInt8} :
    isSpace c = true ↔ c = 0x20 ∨ c = 0x09 ∨ c = 0x0A ∨ c = 0x0D := by
  simp [isSpace, or_assoc]

section Blanks

variable {b back : Bytes}

theorem blanks_nil : Blanks [] := List.forall_mem_nil _

theorem blanks_of_spaces (spaces : ∀ c ∈ b, isSpace c = true) : Blanks b :=
  fun c mem => isSpace_iff.1 (spaces c mem)

theorem Tree.Padded.blanks {t : Tree} (text : t.Padded b) (after : Blanks back) :
    t.Padded (b ++ back) := by
  obtain ⟨before, value, own⟩ := text
  rw [List.append_assoc, List.append_assoc]
  exact .mk before value (List.forall_mem_append.2 ⟨own, after⟩)

theorem Items.blanks {items : List Tree} (between : Items items b) (after : Blanks back) :
    Items items (b ++ back) := by
  cases between with
  | one value => exact .one (value.blanks after)
  | more before value =>
      rw [List.append_assoc, List.cons_append]
      exact .more before (value.blanks after)

theorem Member.blanks {m : Bytes × Tree} (member : Member m b) (after : Blanks back) :
    Member m (b ++ back) := by
  obtain ⟨before, closed, colon, value⟩ := member
  have more := Member.mk before closed colon (value.blanks after)
  simpa using more

theorem Members.blanks {members : List (Bytes × Tree)} (between : Members members b)
    (after : Blanks back) : Members members (b ++ back) := by
  cases between with
  | one member => exact .one (member.blanks after)
  | more before member =>
      rw [List.append_assoc, List.cons_append]
      exact .more before (member.blanks after)

end Blanks

theorem Blanks.spaces {b : Bytes} (blanks : Blanks b) : ∀ c ∈ b, isSpace c = true :=
  fun c mem => isSpace_iff.2 (blanks c mem)

section Words

theorem isWordByte_digit {d : Nat} (small : d < 10) : isWordByte (UInt8.ofNat (0x30 + d)) = true :=
  isWordByte_of_digit (by rw [Numeral.digit?_eq_some_iff.2 ⟨small, rfl⟩]; rfl)

theorem Numeral.Digits.word {digits : List Nat} {b : Bytes} (spelled : Digits digits b) :
    ∀ c ∈ b, isWordByte c = true := by
  obtain ⟨-, small, rfl⟩ := spelled
  intro c mem
  obtain ⟨d, digit, rfl⟩ := List.mem_map.1 mem
  exact isWordByte_digit (small d digit)

theorem Numeral.Fraction.word {f : Option (List Nat)} {b : Bytes} (spelled : Fraction f b) :
    ∀ c ∈ b, isWordByte c = true := by
  cases spelled with
  | none => exact List.forall_mem_nil _
  | some digits => exact List.forall_mem_cons.2 ⟨rfl, digits.word⟩

theorem Numeral.Exponent.word {e : Option (Bool × List Nat)} {b : Bytes} (spelled : Exponent e b) :
    ∀ c ∈ b, isWordByte c = true := by
  cases spelled with
  | none => exact List.forall_mem_nil _
  | some known signed digits =>
      refine List.forall_mem_cons.2 ⟨?_, List.forall_mem_append.2 ⟨?_, digits.word⟩⟩
      · rcases known with rfl | rfl <;> rfl
      · cases signed with
        | none => exact List.forall_mem_nil _
        | plus => exact List.forall_mem_singleton.2 rfl
        | minus => exact List.forall_mem_singleton.2 rfl

theorem Numeral.Spelled.word {n : Numeral} {b : Bytes} (spelled : n.Spelled b) :
    b ≠ [] ∧ ∀ c ∈ b, isWordByte c = true := by
  obtain ⟨whole, -, fraction, exponent⟩ := spelled
  constructor
  · obtain ⟨c, rest, rfl, -⟩ := whole.first
    simp
  · refine List.forall_mem_append.2 ⟨?_, List.forall_mem_append.2 ⟨whole.word,
      List.forall_mem_append.2 ⟨fraction.word, exponent.word⟩⟩⟩
    split
    · exact List.forall_mem_singleton.2 rfl
    · exact List.forall_mem_nil _

theorem Numeral.Spelled.ofWord? {n : Numeral} {b : Bytes} (spelled : n.Spelled b) :
    Tree.ofWord? b = some (.number n) := by
  have numeral := Numeral.read_eq_some_iff.2 spelled
  have name (w : Bytes) (other : Numeral.read w = none) : b ≠ w := by
    rintro rfl
    rw [other] at numeral
    cases numeral
  rw [Tree.ofWord?, if_neg (name _ rfl), if_neg (name _ rfl), if_neg (name _ rfl), numeral,
    Option.map_some]

theorem Numeral.Spelled.written {n : Numeral} {b : Bytes} (spelled : n.Spelled b) :
    Written b (.number n) :=
  written_word spelled.word.1 spelled.word.2 spelled.ofWord?

end Words

theorem Closed.written {w : Bytes} (closed : Closed w) :
    Written (0x22 :: (w ++ [0x22])) (.string w) := by
  refine ⟨[.string w], fun before rest _ => ?_, fun _ _ => rfl, _, _, rfl, nofun⟩
  simpa using closed.lex before rest

section Pieces

variable {b front back : Bytes} {ts ts' : List Token} {opening closing : UInt8} {o c : Token}

theorem Blanks.lexed (blanks : Blanks b) : Lexed b [] :=
  fun before rest _ => lex_spaces blanks.spaces before rest

theorem Lexed.padded (lexed : Lexed b ts) (before : Blanks front) (after : Blanks back) :
    Lexed (front ++ (b ++ back)) ts := by
  intro found rest noWord
  rw [List.append_assoc, List.append_assoc, lex_spaces before.spaces,
    lexed found _ (noWord_spaces after.spaces noWord), lex_spaces after.spaces]

theorem Lexed.mark (first : Lexed front ts) {m : UInt8} {t : Token}
    (marks : ∀ before, Lexer.begin before m = some ⟨t :: before, .between⟩) (second : Lexed b ts') :
    Lexed (front ++ m :: b) (ts ++ t :: ts') := by
  intro found rest noWord
  rw [List.append_assoc, List.cons_append, first found _ (noWord_of_mark marks _), lex_mark marks,
    second _ rest noWord]
  simp

theorem lexed_nil : Lexed [] [] := fun _ _ _ => rfl

theorem Lexed.between (lexed : Lexed b ts)
    (opens : ∀ before, Lexer.begin before opening = some ⟨o :: before, .between⟩)
    (closes : ∀ before, Lexer.begin before closing = some ⟨c :: before, .between⟩) :
    Lexed (opening :: (b ++ [closing])) (o :: (ts ++ [c])) :=
  lexed_nil.mark opens (lexed.mark closes lexed_nil)

end Pieces

/-- Bytes are cut into tokens from which the machine builds the items of an array, from the bracket
on. -/
def WrittenItems (b : Bytes) (items : List Tree) : Prop :=
  ∃ ts, Lexed b ts ∧ ∀ s rest, (Machine.firstItem s).run (ts ++ rest) =
    (Machine.item items.reverse s).run rest

/-- Bytes are cut into tokens from which the machine builds the members of an object, from the brace
on. -/
def WrittenMembers (b : Bytes) (members : List (Bytes × Tree)) : Prop :=
  ∃ ts, Lexed b ts ∧ ∀ s rest, (Machine.firstKey s).run (ts ++ rest) =
    (Machine.member members.reverse s).run rest

def WrittenMember (b : Bytes) (m : Bytes × Tree) : Prop :=
  ∃ ts, Lexed b (.string m.1 :: .colon :: ts) ∧ Built ts m.2

section Containers

variable {b front back : Bytes} {t : Tree} {items : List Tree} {m : Bytes × Tree}
  {members : List (Bytes × Tree)}

theorem Written.padded (written : Written b t) (before : Blanks front) (after : Blanks back) :
    Written (front ++ (b ++ back)) t := by
  obtain ⟨ts, lexed, built⟩ := written
  exact ⟨ts, lexed.padded before after, built⟩

/-- Behind a bracket a value is built as it is elsewhere. -/
theorem Built.run_firstItem {ts : List Token} (built : Built ts t) (s : List Frame)
    (rest : List Token) :
    (Machine.firstItem s).run (ts ++ rest) = (Machine.item [t] s).run rest := by
  have run := built.run (.array [] :: s) rest
  obtain ⟨first, others, rfl, start⟩ := built.start
  rw [List.cons_append, Machine.run] at run ⊢
  cases first with
  | closeBracket => exact absurd rfl start
  | _ => exact run

theorem Written.oneItem (written : Written b t) : WrittenItems b [t] := by
  obtain ⟨ts, lexed, built⟩ := written
  exact ⟨ts, lexed, built.run_firstItem⟩

theorem WrittenItems.more (before : WrittenItems front items) (written : Written b t) :
    WrittenItems (front ++ 0x2C :: b) (items ++ [t]) := by
  obtain ⟨ts, lexed, run⟩ := before
  obtain ⟨ts', lexed', built⟩ := written
  refine ⟨_, lexed.mark (t := .comma) (fun _ => rfl) lexed', fun s rest => ?_⟩
  have last := built.run (.array items.reverse :: s) rest
  rw [List.append_assoc, run, List.reverse_append, List.reverse_singleton, List.singleton_append]
  exact last

theorem Blanks.writtenArray (blanks : Blanks b) : Written (0x5B :: (b ++ [0x5D])) (.array []) :=
  ⟨_, blanks.lexed.between (o := .openBracket) (c := .closeBracket) (fun _ => rfl) (fun _ => rfl),
    fun _ _ => rfl, _, _, rfl, nofun⟩

theorem WrittenItems.array (written : WrittenItems b items) :
    Written (0x5B :: (b ++ [0x5D])) (.array items) := by
  obtain ⟨ts, lexed, run⟩ := written
  refine ⟨_, lexed.between (o := .openBracket) (c := .closeBracket) (fun _ => rfl) (fun _ => rfl),
    fun s rest => ?_, _, _, rfl, nofun⟩
  have close : (Machine.item items.reverse s).run (.closeBracket :: rest) =
      (Machine.complete (.array items.reverse.reverse) s).run rest := rfl
  rw [List.reverse_reverse] at close
  rw [← close, ← run, List.cons_append, List.append_assoc]
  rfl

theorem Written.member (written : Written b t) {key : Bytes} (before : Blanks front)
    (closed : Closed key) (after : Blanks back) :
    WrittenMember (front ++ 0x22 :: (key ++ 0x22 :: (back ++ 0x3A :: b))) (key, t) := by
  obtain ⟨ts, lexed, built⟩ := written
  refine ⟨ts, fun found rest noWord => ?_, built⟩
  have behind := after.lexed.mark (m := 0x3A) (t := .colon) (fun _ => rfl) lexed
    (.string key :: found) rest noWord
  have text : 0x22 :: (key ++ 0x22 :: (back ++ 0x3A :: b)) ++ rest =
      0x22 :: (key ++ 0x22 :: (back ++ 0x3A :: b ++ rest)) := by simp
  rw [List.append_assoc, lex_spaces before.spaces, text, closed.lex, behind]
  simp

theorem WrittenMember.oneMember (written : WrittenMember b m) : WrittenMembers b [m] := by
  obtain ⟨ts, lexed, built⟩ := written
  refine ⟨_, lexed, fun s rest => ?_⟩
  exact built.run (.member [] m.1 :: s) rest

theorem WrittenMembers.more (before : WrittenMembers front members) (written : WrittenMember b m) :
    WrittenMembers (front ++ 0x2C :: b) (members ++ [m]) := by
  obtain ⟨ts, lexed, run⟩ := before
  obtain ⟨ts', lexed', built⟩ := written
  refine ⟨_, lexed.mark (t := .comma) (fun _ => rfl) lexed', fun s rest => ?_⟩
  have last := built.run (.member members.reverse m.1 :: s) rest
  rw [List.append_assoc, run, List.reverse_append, List.reverse_singleton, List.singleton_append]
  exact last

theorem Blanks.writtenObject (blanks : Blanks b) : Written (0x7B :: (b ++ [0x7D])) (.object []) :=
  ⟨_, blanks.lexed.between (o := .openBrace) (c := .closeBrace) (fun _ => rfl) (fun _ => rfl),
    fun _ _ => rfl, _, _, rfl, nofun⟩

theorem WrittenMembers.object (written : WrittenMembers b members) :
    Written (0x7B :: (b ++ [0x7D])) (.object members) := by
  obtain ⟨ts, lexed, run⟩ := written
  refine ⟨_, lexed.between (o := .openBrace) (c := .closeBrace) (fun _ => rfl) (fun _ => rfl),
    fun s rest => ?_, _, _, rfl, nofun⟩
  have close : (Machine.member members.reverse s).run (.closeBrace :: rest) =
      (Machine.complete (.object members.reverse.reverse) s).run rest := rfl
  rw [List.reverse_reverse] at close
  rw [← close, ← run, List.cons_append, List.append_assoc]
  rfl

end Containers

mutual

/-- What the grammar has is written, in the sense of tokens and of the machine. -/
theorem Tree.Spelled.written : ∀ {t : Tree} {b : Bytes}, t.Spelled b → Written b t
  | _, _, .null => written_null
  | _, _, .true => written_bool true
  | _, _, .false => written_bool false
  | _, _, .number numeral => numeral.written
  | _, _, .string closed => closed.written
  | _, _, .emptyArray blanks => blanks.writtenArray
  | _, _, .array items => items.written.array
  | _, _, .emptyObject blanks => blanks.writtenObject
  | _, _, .object members => members.written.object

theorem Tree.Padded.written : ∀ {t : Tree} {b : Bytes}, t.Padded b → Written b t
  | _, _, .mk before value after => value.written.padded before after

theorem Items.written : ∀ {items : List Tree} {b : Bytes}, Items items b → WrittenItems b items
  | _, _, .one value => value.written.oneItem
  | _, _, .more before value => before.written.more value.written

theorem Member.written : ∀ {m : Bytes × Tree} {b : Bytes}, Member m b → WrittenMember b m
  | _, _, .mk before closed after value => value.written.member before closed after

theorem Members.written : ∀ {members : List (Bytes × Tree)} {b : Bytes},
    Members members b → WrittenMembers b members
  | _, _, .one member => member.written.oneMember
  | _, _, .more before member => before.written.more member.written

end

theorem Tree.Padded.parse {t : Tree} {b : Bytes} (text : t.Padded b) : Tree.parse b = some t :=
  text.written.parse

end ContractHost.Json
