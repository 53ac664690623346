import ContractHost.Proofs.Json.Grammar

/-!
Exactly the texts of the grammar are parsed, each as the tree that the grammar says
(`parse_eq_some_iff_padded`).

What the lexer and the machine keep while a text is read says what the bytes read so
far are: tokens with blanks between them (`Lexer.Reads`), and the front of a text with
some arrays and objects open (`Machine.Reads`). One step keeps this true, and when the
machine is done, the bytes are a text.
-/

namespace ContractHost.Json

inductive Token.Spelled : Token → Bytes → Prop
  | openBrace : Spelled .openBrace [0x7B]
  | closeBrace : Spelled .closeBrace [0x7D]
  | openBracket : Spelled .openBracket [0x5B]
  | closeBracket : Spelled .closeBracket [0x5D]
  | colon : Spelled .colon [0x3A]
  | comma : Spelled .comma [0x2C]
  | string {raw : Bytes} (closed : Closed raw) : Spelled (.string raw) (0x22 :: (raw ++ [0x22]))
  | word (w : Bytes) : Spelled (.word w) w

/-- Bytes are tokens with blanks between them, the latest token first. -/
inductive Cut : List Token → Bytes → Prop
  | nil : Cut [] []
  | blank {ts : List Token} {p : Bytes} {c : UInt8} (before : Cut ts p) (space : isSpace c = true) :
    Cut ts (p ++ [c])
  | token {ts : List Token} {p b : Bytes} {t : Token} (before : Cut ts p) (spelled : t.Spelled b) :
    Cut (t :: ts) (p ++ b)

namespace Lexer

variable {l l' : Lexer} {b : UInt8} {p text : Bytes} {ts : List Token}

inductive Reads : Lexer → Bytes → Prop
  | between {ts : List Token} {p : Bytes} (cut : Cut ts p) : Reads ⟨ts, .between⟩ p
  | word {ts : List Token} {p w : Bytes} (cut : Cut ts p) : Reads ⟨ts, .word w.reverse⟩ (p ++ w)
  | string {ts : List Token} {p w : Bytes} (cut : Cut ts p) (closed : Closed w) :
    Reads ⟨ts, .string w.reverse⟩ (p ++ 0x22 :: w)
  | escape {ts : List Token} {p w : Bytes} (cut : Cut ts p) (closed : Closed w) :
    Reads ⟨ts, .escape (0x5C :: w.reverse)⟩ (p ++ 0x22 :: (w ++ [0x5C]))

theorem spelled_of_punctuation {t : Token} (mark : punctuation? b = some t) : t.Spelled [b] := by
  unfold punctuation? at mark
  repeat
    split at mark
    · next same =>
      cases mark
      rw [same]
      constructor
  cases mark

theorem Reads.begin (cut : Cut ts p) (begun : begin ts b = some l) : Reads l (p ++ [b]) := by
  unfold Lexer.begin at begun
  split at begun
  · next space =>
    cases begun
    exact .between (cut.blank space)
  split at begun
  · cases begun
    exact .word (w := [b]) cut
  split at begun
  · next quote =>
    cases begun
    rw [quote]
    exact .string cut .nil
  · obtain ⟨t, mark, rfl⟩ := Option.map_eq_some_iff.1 begun
    exact .between (cut.token (spelled_of_punctuation mark))

theorem Reads.step (reads : Reads l p) (stepped : l.step b = some l') : Reads l' (p ++ [b]) := by
  cases reads with
  | between cut => exact Reads.begin cut stepped
  | @word ts p w cut =>
      simp only [Lexer.step] at stepped
      split at stepped
      · cases stepped
        have more := Reads.word (w := w ++ [b]) cut
        rwa [List.reverse_append, ← List.append_assoc] at more
      · rw [List.reverse_reverse] at stepped
        exact Reads.begin (cut.token (.word w)) stepped
  | @string ts p w cut closed =>
      simp only [Lexer.step] at stepped
      rw [List.append_assoc, List.cons_append]
      split at stepped
      · next quote =>
        cases stepped
        rw [List.reverse_reverse, quote]
        exact .between (cut.token (.string closed))
      next quote =>
      split at stepped
      · next backslash =>
        cases stepped
        rw [backslash]
        exact .escape cut closed
      · next backslash =>
        cases stepped
        have more := Reads.string cut (closed.append (.plain quote backslash .nil))
        rwa [List.reverse_append] at more
  | @escape ts p w cut closed =>
      cases stepped
      have more := Reads.string cut (closed.append (.escape b .nil))
      rw [List.reverse_append] at more
      rw [List.append_assoc, List.cons_append, List.append_assoc]
      exact more

theorem Reads.run (reads : Reads l p) (ran : l.run text = some l') : Reads l' (p ++ text) := by
  induction text generalizing l p with
  | nil =>
      cases ran
      rwa [List.append_nil]
  | cons b rest ih =>
      simp only [Lexer.run] at ran
      split at ran
      · cases ran
      · next stepped =>
        have more := ih (reads.step stepped) ran
        rwa [List.append_assoc, List.singleton_append] at more

theorem Reads.finish (reads : Reads l p) (finished : l.finish = some ts) : Cut ts.reverse p := by
  cases reads with
  | between cut =>
      cases finished
      rwa [List.reverse_reverse]
  | word cut =>
      cases finished
      rw [List.reverse_reverse, List.reverse_reverse]
      exact cut.token (.word _)
  | string _ _ => cases finished
  | escape _ _ => cases finished

end Lexer

theorem cut_of_tokens {text : Bytes} {ts : List Token} (found : tokens text = some ts) :
    Cut ts.reverse text := by
  obtain ⟨l, ran, finished⟩ := Option.bind_eq_some_iff.1 found
  exact ((Lexer.Reads.between .nil).run ran).finish finished

namespace Machine

/-- Bytes within an array after which an item has to follow: none, or items and a comma. -/
inductive ItemFollows : List Tree → Bytes → Prop
  | first : ItemFollows [] []
  | next {items : List Tree} {b : Bytes} (before : Items items.reverse b) :
    ItemFollows items (b ++ [0x2C])

/-- Bytes within an object after which a key has to follow: none, or members and a comma. -/
inductive KeyFollows : List (Bytes × Tree) → Bytes → Prop
  | first : KeyFollows [] []
  | next {members : List (Bytes × Tree)} {b : Bytes} (before : Members members.reverse b) :
    KeyFollows members (b ++ [0x2C])

theorem ItemFollows.item {items : List Tree} {t : Tree} {b v : Bytes}
    (follows : ItemFollows items b) (value : t.Padded v) : Items (t :: items).reverse (b ++ v) := by
  cases follows with
  | first => exact .one value
  | next before =>
      rw [List.reverse_cons, List.append_assoc]
      exact .more before value

theorem KeyFollows.member {members : List (Bytes × Tree)} {m : Bytes × Tree} {b v : Bytes}
    (follows : KeyFollows members b) (member : Member m v) :
    Members (m :: members).reverse (b ++ v) := by
  cases follows with
  | first => exact .one member
  | next before =>
      rw [List.reverse_cons, List.append_assoc]
      exact .more before member

mutual

inductive Open : List Frame → Bytes → Prop
  | nil : Open [] []
  | array {s : List Frame} {items : List Tree} {p b : Bytes} (inside : Inside s 0x5B p)
    (before : ItemFollows items b) : Open (.array items :: s) (p ++ b)
  | member {s : List Frame} {members : List (Bytes × Tree)} {p b k front back : Bytes}
    (inside : Inside s 0x7B p) (others : KeyFollows members b) (before : Blanks front)
    (closed : Closed k) (after : Blanks back) : Open (.member members k :: s)
      (p ++ (b ++ (front ++ 0x22 :: (k ++ 0x22 :: (back ++ [0x3A])))))

inductive Inside : List Frame → UInt8 → Bytes → Prop
  | mk {s : List Frame} {c : UInt8} {p blanks : Bytes} (opened : Open s p)
    (before : Blanks blanks) : Inside s c (p ++ (blanks ++ [c]))

end

inductive Reads : Machine → Bytes → Prop
  | value {s : List Frame} {p blanks : Bytes} (opened : Open s p) (before : Blanks blanks) :
    Reads (.value s) (p ++ blanks)
  | firstItem {s : List Frame} {p blanks : Bytes} (inside : Inside s 0x5B p)
    (between : Blanks blanks) : Reads (.firstItem s) (p ++ blanks)
  | item {s : List Frame} {items : List Tree} {p b : Bytes} (inside : Inside s 0x5B p)
    (between : Items items.reverse b) : Reads (.item items s) (p ++ b)
  | firstKey {s : List Frame} {p blanks : Bytes} (inside : Inside s 0x7B p)
    (between : Blanks blanks) : Reads (.firstKey s) (p ++ blanks)
  | nextKey {s : List Frame} {members : List (Bytes × Tree)} {p b blanks : Bytes}
    (inside : Inside s 0x7B p) (others : Members members.reverse b) (before : Blanks blanks) :
    Reads (.nextKey members s) (p ++ (b ++ 0x2C :: blanks))
  | colon {s : List Frame} {members : List (Bytes × Tree)} {p b k front back : Bytes}
    (inside : Inside s 0x7B p) (others : KeyFollows members b) (before : Blanks front)
    (closed : Closed k) (after : Blanks back) :
    Reads (.colon members k s) (p ++ (b ++ (front ++ 0x22 :: (k ++ 0x22 :: back))))
  | member {s : List Frame} {members : List (Bytes × Tree)} {p b : Bytes} (inside : Inside s 0x7B p)
    (between : Members members.reverse b) : Reads (.member members s) (p ++ b)
  | done {t : Tree} {p : Bytes} (text : t.Padded p) : Reads (.done t) p

variable {m m' : Machine} {s : List Frame} {t : Tree} {x : Token} {c d : UInt8}
  {p b v blanks : Bytes} {ts : List Token}

theorem Open.complete (opened : Open s p) (before : Blanks blanks) (value : t.Spelled v) :
    Reads (complete t s) (p ++ (blanks ++ v)) := by
  have text : t.Padded (blanks ++ v) := by
    rw [← List.append_nil v]
    exact .mk before value blanks_nil
  cases opened with
  | nil => exact .done text
  | array inside follows =>
      rw [List.append_assoc]
      exact .item inside (follows.item text)
  | member inside others front closed back =>
      have members := Reads.member inside (others.member (.mk front closed back text))
      simpa [Machine.complete] using members

theorem Inside.close (inside : Inside s c p) (value : t.Spelled (c :: (v ++ [d]))) :
    Reads (complete t s) (p ++ v ++ [d]) := by
  obtain ⟨opened, before⟩ := inside
  have whole := opened.complete before value
  simpa using whole

theorem Reads.blank (reads : Reads m p) (space : isSpace c = true) : Reads m (p ++ [c]) := by
  have one : Blanks [c] := blanks_of_spaces (List.forall_mem_singleton.2 space)
  have also {b : Bytes} (blanks : Blanks b) : Blanks (b ++ [c]) :=
    List.forall_mem_append.2 ⟨blanks, one⟩
  cases reads with
  | value opened before =>
      rw [List.append_assoc]
      exact .value opened (also before)
  | firstItem inside between =>
      rw [List.append_assoc]
      exact .firstItem inside (also between)
  | item inside between =>
      rw [List.append_assoc]
      exact .item inside (between.blanks one)
  | firstKey inside between =>
      rw [List.append_assoc]
      exact .firstKey inside (also between)
  | nextKey inside others before =>
      have more := Reads.nextKey inside others (also before)
      simpa using more
  | colon inside others before closed after =>
      have more := Reads.colon inside others before closed (also after)
      simpa using more
  | member inside between =>
      rw [List.append_assoc]
      exact .member inside (between.blanks one)
  | done text => exact .done (text.blanks one)

theorem spelled_of_ofWord? {w : Bytes} (made : Tree.ofWord? w = some t) : t.Spelled w := by
  unfold Tree.ofWord? at made
  split at made
  · next name =>
    cases made
    rw [name]
    exact .null
  split at made
  · next name =>
    cases made
    rw [name]
    exact .true
  split at made
  · next name =>
    cases made
    rw [name]
    exact .false
  · obtain ⟨n, read, rfl⟩ := Option.map_eq_some_iff.1 made
    exact .number (Numeral.read_eq_some_iff.1 read)

theorem Open.start (opened : Open s p) (before : Blanks blanks) (spelled : x.Spelled b)
    (started : startValue s x = some m) : Reads m (p ++ (blanks ++ b)) := by
  have inside (c : UInt8) : Inside s c (p ++ (blanks ++ [c])) := .mk opened before
  cases spelled with
  | openBrace =>
      cases started
      rw [← List.append_nil (p ++ _)]
      exact .firstKey (inside 0x7B) blanks_nil
  | openBracket =>
      cases started
      rw [← List.append_nil (p ++ _)]
      exact .firstItem (inside 0x5B) blanks_nil
  | string closed =>
      cases started
      exact opened.complete before (.string closed)
  | word w =>
      obtain ⟨t, made, rfl⟩ := Option.map_eq_some_iff.1 started
      exact opened.complete before (spelled_of_ofWord? made)
  | closeBrace | closeBracket | colon | comma => cases started

/-- One more token keeps what the bytes are. -/
theorem Reads.step (reads : Reads m p) (spelled : x.Spelled b) (stepped : m.step x = some m') :
    Reads m' (p ++ b) := by
  cases reads with
  | value opened before =>
      rw [List.append_assoc]
      exact opened.start before spelled stepped
  | @firstItem s p blanks inside between =>
      rw [List.append_assoc]
      by_cases close : x = .closeBracket
      · subst close
        cases spelled
        cases stepped
        rw [← List.append_assoc]
        exact inside.close (.emptyArray between)
      · have started : startValue (.array [] :: s) x = some m' := by
          cases x with
          | closeBracket => exact absurd rfl close
          | _ => exact stepped
        have opened := Open.array inside .first
        rw [List.append_nil] at opened
        exact opened.start between spelled started
  | item inside between =>
      cases spelled with
      | comma =>
          cases stepped
          have opened := Reads.value (.array inside (.next between)) blanks_nil
          simpa using opened
      | closeBracket =>
          cases stepped
          exact inside.close (.array between)
      | _ => cases stepped
  | firstKey inside between =>
      cases spelled with
      | string closed =>
          cases stepped
          have key := Reads.colon inside .first between closed blanks_nil
          simpa using key
      | closeBrace =>
          cases stepped
          exact inside.close (.emptyObject between)
      | _ => cases stepped
  | nextKey inside others before =>
      cases spelled with
      | string closed =>
          cases stepped
          have key := Reads.colon inside (.next others) before closed blanks_nil
          simpa using key
      | _ => cases stepped
  | colon inside others before closed after =>
      cases spelled with
      | colon =>
          cases stepped
          have opened := Reads.value (.member inside others before closed after) blanks_nil
          simpa using opened
      | _ => cases stepped
  | member inside between =>
      cases spelled with
      | comma =>
          cases stepped
          have key := Reads.nextKey inside between blanks_nil
          simpa using key
      | closeBrace =>
          cases stepped
          exact inside.close (.object between)
      | _ => cases stepped
  | done text => cases spelled <;> cases stepped

theorem reads_of_cut (cut : Cut ts p) (ran : (Machine.value []).run ts.reverse = some m) :
    Reads m p := by
  induction cut generalizing m with
  | nil =>
      cases ran
      exact .value .nil blanks_nil
  | blank _ space ih => exact (ih ran).blank space
  | @token ts p b t _ spelled ih =>
      rw [List.reverse_cons, run_append] at ran
      obtain ⟨m₀, before, last⟩ := Option.bind_eq_some_iff.1 ran
      simp only [run] at last
      split at last
      · cases last
      · next stepped =>
        cases last
        exact (ih before).step spelled stepped

end Machine

theorem parse_eq_some_iff_padded {text : Bytes} {t : Tree} :
    Tree.parse text = some t ↔ t.Padded text := by
  constructor
  · intro parsed
    obtain ⟨ts, found, done⟩ := parse_eq_some_iff.1 parsed
    have reads := Machine.reads_of_cut (cut_of_tokens found) (by rwa [List.reverse_reverse])
    cases reads with
    | done text => exact text
  · exact Tree.Padded.parse

end ContractHost.Json
