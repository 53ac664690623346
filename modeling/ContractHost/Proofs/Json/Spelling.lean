import ContractHost.Proofs.Json.CodePoint

/-!
Which contents of a JSON string are a text, and which text they are.

A character of the text is spelled by its own bytes, by a letter behind a backslash, or by one or
two code units in hexadecimal digits. The contents are a text exactly if they spell its characters
one after the other (`stringText?_eq_some_iff`). What has to be shown for this is that bytes of one
character never come from pieces of two kinds, since no code unit gives a byte that goes on with a
character.
-/

namespace ContractHost.Json

/-- The code points that a letter behind a backslash stands for, and the letters. -/
def shortEscapes : List (Nat × UInt8) :=
  [(0x22, 0x22), (0x5C, 0x5C), (0x2F, 0x2F), (0x08, 0x62), (0x0C, 0x66), (0x0A, 0x6E),
    (0x0D, 0x72), (0x09, 0x74)]

/-- A code unit in four hexadecimal digits, behind a backslash and `u`. -/
inductive UnitSpelled (n : Nat) : Bytes → Prop
  | mk {a b c d : UInt8} (digits : hexUnit? a b c d = some n) :
    UnitSpelled n [0x5C, 0x75, a, b, c, d]

/-- A character in the contents of a string. A quote may stand for itself here: that it would end
the string is said where strings are. -/
inductive CharSpelled (c : Char) : Bytes → Prop
  | itself (bare : c.toNat ≠ 0x5C) (shown : 0x20 ≤ c.toNat) :
    CharSpelled c (String.utf8EncodeChar c)
  | letter {e : UInt8} (known : (c.toNat, e) ∈ shortEscapes) : CharSpelled c [0x5C, e]
  | unit {b : Bytes} (spelled : UnitSpelled c.toNat b) : CharSpelled c b
  | pair {n m : Nat} {front back : Bytes} (first : UnitSpelled n front)
    (second : UnitSpelled m back) (leading : isLeading n = true) (trailing : isTrailing m = true)
    (value : c.toNat = 0x10000 + (n - 0xD800) * 1024 + (m - 0xDC00)) :
    CharSpelled c (front ++ back)

inductive PieceSpelled : Piece → Bytes → Prop
  | plain {b : UInt8} (bare : b ≠ 0x5C) : PieceSpelled (.plain b) [b]
  | letter {n : Nat} {e : UInt8} (known : (n, e) ∈ shortEscapes) : PieceSpelled (.unit n) [0x5C, e]
  | unit {n : Nat} {b : Bytes} (spelled : UnitSpelled n b) : PieceSpelled (.unit n) b

theorem shortEscape?_eq_some_iff {e : UInt8} {n : Nat} :
    shortEscape? e = some n ↔ (n, e) ∈ shortEscapes := by
  simp only [shortEscapes, List.mem_cons, Prod.mk.injEq, List.not_mem_nil, or_false]
  constructor
  · intro known
    unfold shortEscape? at known
    repeat (split at known; next letter => simp_all)
    cases known
  · rintro (h | h | h | h | h | h | h | h) <;>
    · obtain ⟨rfl, rfl⟩ := h
      rfl

section Pieces

variable {found ps : List Piece} {raw b : Bytes} {n : Nat}

theorem UnitSpelled.piecesInto (spelled : UnitSpelled n b) (found : List Piece) (rest : Bytes) :
    piecesInto found (b ++ rest) = Json.piecesInto (.unit n :: found) rest := by
  obtain ⟨digits⟩ := spelled
  simp [Json.piecesInto, digits]

theorem PieceSpelled.piecesInto {p : Piece} (spelled : PieceSpelled p b) (found : List Piece)
    (rest : Bytes) : piecesInto found (b ++ rest) = Json.piecesInto (p :: found) rest := by
  cases spelled with
  | @plain b bare =>
      rw [List.singleton_append, Json.piecesInto, if_neg bare]
      all_goals
        intros
        exact bare ‹_›
  | @letter n e known =>
      have letter := shortEscape?_eq_some_iff.2 known
      have other : e ≠ 0x75 := by
        rintro rfl
        cases letter
      simp [Json.piecesInto, letter, other]
  | unit spelled => exact spelled.piecesInto found rest

/-- The contents of a string are taken apart into exactly the pieces that spell them. -/
theorem piecesInto_eq_some_iff : piecesInto found raw = some ps ↔
    ∃ more, ps = found.reverse ++ more ∧ Bytes.InTurn PieceSpelled more raw := by
  constructor
  · intro read
    fun_induction piecesInto found raw with
    | case1 found =>
        cases read
        exact ⟨[], by simp, .nil⟩
    | case2 | case4 | case6 => cases read
    | case3 found a b c d rest n digits ih =>
        obtain ⟨more, rfl, spelled⟩ := ih read
        exact ⟨.unit n :: more, by simp, .cons (.unit ⟨digits⟩) spelled⟩
    | case5 found e rest _ n letter ih =>
        obtain ⟨more, rfl, spelled⟩ := ih read
        have known := shortEscape?_eq_some_iff.1 letter
        exact ⟨.unit n :: more, by simp, .cons (.letter known) spelled⟩
    | case7 found b rest _ _ bare ih =>
        obtain ⟨more, rfl, spelled⟩ := ih read
        exact ⟨.plain b :: more, by simp, .cons (.plain bare) spelled⟩
  · rintro ⟨more, rfl, spelled⟩
    induction spelled generalizing found with
    | nil => simp [piecesInto]
    | cons first _ ih =>
        rw [first.piecesInto, ih]
        simp

theorem pieces_eq_some_iff : pieces raw = some ps ↔ Bytes.InTurn PieceSpelled ps raw := by
  simp [pieces, piecesInto_eq_some_iff]

end Pieces

namespace Piece

variable {n m : Nat} {ps : List Piece}

theorem pieceBytes_append (more done : List Bytes) (ps : List Piece) :
    pieceBytes (more ++ done) ps = done.reverse ++ pieceBytes more ps := by
  fun_induction pieceBytes more ps with
  | case1 more => simp [pieceBytes]
  | case2 more b rest ih => exact ih
  | case3 more n m rest paired ih =>
      rw [pieceBytes, if_pos paired]
      exact ih
  | case4 more n m rest alone ih =>
      rw [pieceBytes, if_neg alone]
      exact ih
  | case5 more n rest other ih =>
      rw [← ih]
      cases rest with
      | nil => rfl
      | cons p rest =>
          cases p with
          | plain b => rfl
          | unit m => exact absurd rfl (other m rest)

theorem flatten_pieceBytes (b : Bytes) (ps : List Piece) :
    (pieceBytes [b] ps).flatten = b ++ bytes ps := by
  rw [← List.nil_append [b], pieceBytes_append, List.reverse_singleton, List.singleton_append,
    List.flatten_cons, bytes]

theorem bytes_plain (b : UInt8) (ps : List Piece) : bytes (.plain b :: ps) = b :: bytes ps := by
  exact flatten_pieceBytes [b] ps

theorem bytes_pair (leading : isLeading n = true) (trailing : isTrailing m = true)
    (ps : List Piece) : bytes (.unit n :: .unit m :: ps) =
      codePointBytes (0x10000 + (n - 0xD800) * 1024 + (m - 0xDC00)) ++ bytes ps := by
  rw [bytes, pieceBytes, if_pos (by rw [leading, trailing]; rfl), flatten_pieceBytes]

theorem bytes_single
    (single : ∀ m rest, ps = .unit m :: rest → (isLeading n && isTrailing m) = false) :
    bytes (.unit n :: ps) = codePointBytes n ++ bytes ps := by
  have step : pieceBytes [] (.unit n :: ps) = pieceBytes [codePointBytes n] ps := by
    match ps with
    | [] => rfl
    | .plain b :: rest => rfl
    | .unit m :: rest => rw [pieceBytes, single m rest rfl, if_neg Bool.false_ne_true]
  rw [bytes, step, flatten_pieceBytes]

theorem bytes_map_plain (b : Bytes) (ps : List Piece) :
    bytes (b.map .plain ++ ps) = b ++ bytes ps := by
  induction b with
  | nil => rfl
  | cons x b ih => rw [List.map_cons, List.cons_append, bytes_plain, ih, List.cons_append]

end Piece

/-- A piece that a text may have: control characters are written as escapes. -/
def Shown (p : Piece) (b : Bytes) : Prop := PieceSpelled p b ∧ p.isControl = false

theorem stringText?_eq_some_iff_pieces {raw : Bytes} {s : String} : stringText? raw = some s ↔
    ∃ ps, Bytes.InTurn Shown ps raw ∧ Piece.bytes ps = Bytes.ofText s := by
  have clean (ps : List Piece) : Bytes.InTurn Shown ps raw ↔
      pieces raw = some ps ∧ ps.any Piece.isControl = false := by
    rw [pieces_eq_some_iff, List.any_eq_false]
    simp only [Bool.not_eq_true]
    exact Bytes.inTurn_and_iff
  simp only [clean]
  unfold stringText?
  constructor
  · intro read
    split at read
    · cases read
    · next ps taken =>
      split at read
      · cases read
      · next clean => exact ⟨ps, ⟨taken, Bool.eq_false_iff.2 clean⟩, Bytes.text?_eq_some_iff.1 read⟩
  · rintro ⟨ps, ⟨taken, clean⟩, bytes⟩
    simp [taken, clean, bytes]

section Completeness

theorem toNat_of_mem {c : Char} {b : UInt8} (mem : b ∈ String.utf8EncodeChar c) :
    b.toNat = c.toNat ∨ 0x80 ≤ b.toNat := by
  rw [utf8EncodeChar_eq] at mem
  obtain ⟨low, bytes⟩ | ⟨-, first, rest, bytes, high, continues⟩ :=
    codePointBytes_cases (toNat_char_lt c)
  · rw [bytes, List.mem_singleton] at mem
    subst mem
    exact .inl (UInt8.toNat_ofNat_of_lt' (Nat.lt_trans low (by decide)))
  · rw [bytes, List.mem_cons] at mem
    rcases mem with rfl | mem
    · omega
    · exact .inr (continues b mem).1

theorem inTurn_plain {b : Bytes} (bare : ∀ x ∈ b, x ≠ 0x5C ∧ 0x20 ≤ x.toNat) :
    Bytes.InTurn Shown (b.map .plain) b := by
  induction b with
  | nil => exact .nil
  | cons x b ih =>
      obtain ⟨⟨backslash, shown⟩, others⟩ := List.forall_mem_cons.1 bare
      have here : Shown (.plain x) [x] :=
        ⟨.plain backslash, by simp [Piece.isControl, UInt8.le_iff_toNat_le, shown]⟩
      exact .cons here (ih others)

theorem isLeading_char (c : Char) : isLeading c.toNat = false := by
  have valid := toNat_char c
  simp only [isLeading, Bool.and_eq_false_iff, decide_eq_false_iff_not]
  omega

theorem CharSpelled.pieces {c : Char} {b : Bytes} (spelled : CharSpelled c b) :
    ∃ ps, Bytes.InTurn Shown ps b ∧ ∀ more,
      Piece.bytes (ps ++ more) = String.utf8EncodeChar c ++ Piece.bytes more := by
  have alone (more : List Piece) :
      Piece.bytes (.unit c.toNat :: more) = String.utf8EncodeChar c ++ Piece.bytes more := by
    rw [utf8EncodeChar_eq]
    refine Piece.bytes_single fun m rest _ => ?_
    rw [isLeading_char, Bool.false_and]
  have one {p : Piece} {b : Bytes} (first : Shown p b) : Bytes.InTurn Shown [p] b := by
    rw [← List.append_nil b]
    exact .cons first .nil
  cases spelled with
  | itself bare shown =>
      refine ⟨(String.utf8EncodeChar c).map .plain, inTurn_plain fun x mem => ?_,
        Piece.bytes_map_plain _⟩
      have byte := toNat_of_mem mem
      refine ⟨?_, by omega⟩
      rintro rfl
      have backslash : (0x5C : UInt8).toNat = 0x5C := rfl
      omega
  | letter known => exact ⟨[.unit c.toNat], one ⟨.letter known, rfl⟩, alone⟩
  | unit spelled => exact ⟨[.unit c.toNat], one ⟨.unit spelled, rfl⟩, alone⟩
  | @pair n m front back first second leading trailing value =>
      refine ⟨[.unit n, .unit m], .cons ⟨.unit first, rfl⟩ (one ⟨.unit second, rfl⟩),
        fun more => ?_⟩
      rw [utf8EncodeChar_eq, value]
      exact Piece.bytes_pair leading trailing more

theorem pieces_of_chars {cs : List Char} {raw : Bytes} (spelled : Bytes.InTurn CharSpelled cs raw) :
    ∃ ps, Bytes.InTurn Shown ps raw ∧ Piece.bytes ps = cs.flatMap String.utf8EncodeChar := by
  induction spelled with
  | nil => exact ⟨[], .nil, rfl⟩
  | cons first _ ih =>
      obtain ⟨front, here, bytes⟩ := first.pieces
      obtain ⟨ps, others, rest⟩ := ih
      exact ⟨front ++ ps, here.append others, by rw [bytes, rest, List.flatMap_cons]⟩

end Completeness

section Soundness

variable {n : Nat} {ps : List Piece} {raw b tail : Bytes}

theorem hexValue_lt {x : UInt8} {v : Nat} (digit : Hex.value? x = some v) : v < 16 := by
  unfold Hex.value? at digit
  dsimp only at digit
  split at digit
  · cases digit
    omega
  split at digit
  · cases digit
    omega
  split at digit
  · cases digit
    omega
  · cases digit

theorem UnitSpelled.lt (spelled : UnitSpelled n b) : n < 0x10000 := by
  obtain ⟨digits⟩ := spelled
  simp only [hexUnit?, Option.bind_eq_bind, Option.bind_eq_some_iff] at digits
  obtain ⟨v₁, first, v₂, second, v₃, third, v₄, fourth, value⟩ := digits
  have bounds := And.intro (hexValue_lt first) (hexValue_lt second)
  have bounds' := And.intro (hexValue_lt third) (hexValue_lt fourth)
  cases value
  omega

theorem lt_of_mem_shortEscapes {e : UInt8} (known : (n, e) ∈ shortEscapes) : n < 0x80 := by
  have each : ∀ p ∈ shortEscapes, p.1 < 0x80 := by decide
  exact each _ known

theorem PieceSpelled.char {c : Char} (spelled : PieceSpelled (.unit n) b) (value : c.toNat = n) :
    CharSpelled c b := by
  cases spelled with
  | letter known => exact .letter (value ▸ known)
  | unit spelled => exact .unit (value ▸ spelled)

theorem PieceSpelled.unit_of_le (spelled : PieceSpelled (.unit n) b) (high : 0x80 ≤ n) :
    UnitSpelled n b := by
  cases spelled with
  | letter known => exact absurd (lt_of_mem_shortEscapes known) (Nat.not_lt.2 high)
  | unit spelled => exact spelled

theorem PieceSpelled.lt (spelled : PieceSpelled (.unit n) b) : n < 0x10000 := by
  cases spelled with
  | letter known => exact Nat.lt_trans (lt_of_mem_shortEscapes known) (by decide)
  | unit spelled => exact spelled.lt

/-- Contents that start with a code unit start with a whole code point, and if that is a character
they spell it. -/
theorem unit_cases (spelled : Bytes.InTurn Shown (.unit n :: ps) raw) :
    ∃ m front rest back, m < 0x110000 ∧ raw = front ++ back ∧ Bytes.InTurn Shown rest back ∧
      Piece.bytes (.unit n :: ps) = codePointBytes m ++ Piece.bytes rest ∧
        ∀ c : Char, c.toNat = m → CharSpelled c front := by
  cases spelled with
  | @cons _ _ front back first others =>
  by_cases pair : ∃ m rest, ps = .unit m :: rest ∧ (isLeading n && isTrailing m) = true
  · obtain ⟨m, rest, rfl, paired⟩ := pair
    obtain ⟨leading, trailing⟩ := Bool.and_eq_true_iff.1 paired
    have bounds : 0xD800 ≤ n ∧ n ≤ 0xDBFF := by simpa [isLeading] using leading
    have bounds' : 0xDC00 ≤ m ∧ m ≤ 0xDFFF := by simpa [isTrailing] using trailing
    cases others with
    | @cons _ _ middle back second others =>
    refine ⟨_, front ++ middle, rest, back, ?_, (List.append_assoc ..).symm, others,
      Piece.bytes_pair leading trailing rest, fun c value => ?_⟩
    · omega
    · exact .pair (first.1.unit_of_le (by omega)) (second.1.unit_of_le (by omega)) leading trailing
        value
  · refine ⟨n, front, ps, back, Nat.lt_trans first.1.lt (by decide), rfl, others, ?_,
      fun c value => first.1.char value⟩
    refine Piece.bytes_single fun m rest eq => Bool.eq_false_iff.2 fun paired => ?_
    exact pair ⟨m, rest, eq, paired⟩

theorem plain_of_continues (continues : ∀ x ∈ b, Continues x) (spelled : Bytes.InTurn Shown ps raw)
    (bytes : Piece.bytes ps = b ++ tail) :
    ∃ rest back, raw = b ++ back ∧ Bytes.InTurn Shown rest back ∧ Piece.bytes rest = tail := by
  induction b generalizing ps raw with
  | nil => exact ⟨ps, raw, rfl, spelled, bytes⟩
  | cons x b ih =>
      obtain ⟨here, others⟩ := List.forall_mem_cons.1 continues
      match ps, spelled with
      | [], _ => cases bytes
      | .plain y :: ps, .cons first behind =>
          obtain ⟨⟨-⟩, -⟩ := first
          rw [Piece.bytes_plain] at bytes
          obtain ⟨rfl, behindBytes⟩ := List.cons.inj bytes
          obtain ⟨rest, back, rfl, inTurn, same⟩ := ih others behind behindBytes
          exact ⟨rest, back, rfl, inTurn, same⟩
      | .unit n :: ps, spelled =>
          obtain ⟨m, -, rest, -, small, -, -, start, -⟩ := unit_cases spelled
          rw [start] at bytes
          obtain ⟨low, form⟩ | ⟨-, y, others, form, high, -⟩ := codePointBytes_cases small
          · rw [form] at bytes
            obtain ⟨rfl, -⟩ := List.cons.inj bytes
            have byte : (UInt8.ofNat m).toNat = m :=
              UInt8.toNat_ofNat_of_lt' (Nat.lt_trans low (by decide))
            rw [Continues, byte] at here
            omega
          · rw [form] at bytes
            obtain ⟨rfl, -⟩ := List.cons.inj bytes
            rw [Continues] at here
            omega

theorem ne_nil_of_bytes (spelled : Bytes.InTurn Shown ps raw) (filled : ps ≠ []) :
    Piece.bytes ps ≠ [] := by
  match ps, spelled with
  | [], _ => exact absurd rfl filled
  | .plain y :: ps, _ =>
      rw [Piece.bytes_plain]
      exact List.cons_ne_nil _ _
  | .unit n :: ps, spelled =>
      obtain ⟨m, -, rest, -, small, -, -, start, -⟩ := unit_cases spelled
      rw [start]
      obtain ⟨-, form⟩ | ⟨-, y, others, form, -⟩ := codePointBytes_cases small
      all_goals
        rw [form]
        exact List.cons_ne_nil _ _

/-- A character that starts with a byte of the contents stands in them with all its bytes. -/
theorem char_of_plain {c : Char} {y : UInt8} (first : Shown (.plain y) b)
    (spelled : Bytes.InTurn Shown ps raw)
    (bytes : y :: Piece.bytes ps = String.utf8EncodeChar c ++ tail) :
    ∃ front rest back, b ++ raw = front ++ back ∧ CharSpelled c front ∧
      Bytes.InTurn Shown rest back ∧ Piece.bytes rest = tail := by
  obtain ⟨⟨bare⟩, shown⟩ := first
  have itself : 0x80 ≤ c.toNat ∨ y.toNat = c.toNat → CharSpelled c (String.utf8EncodeChar c) := by
    have backslash : y.toNat ≠ 0x5C := fun same => bare (UInt8.toNat_inj.1 same)
    have control : 0x20 ≤ y.toNat := by
      simpa [Piece.isControl, UInt8.le_iff_toNat_le] using shown
    intro byte
    exact .itself (by omega) (by omega)
  rw [utf8EncodeChar_eq] at bytes itself
  obtain ⟨low, form⟩ | ⟨high, z, others, form, -, continues⟩ :=
    codePointBytes_cases (toNat_char_lt c)
  · rw [form] at bytes itself
    obtain ⟨rfl, same⟩ := List.cons.inj bytes
    exact ⟨_, ps, raw, rfl, itself (.inr (UInt8.toNat_ofNat_of_lt' (Nat.lt_trans low (by decide)))),
      spelled, same⟩
  · rw [form] at bytes itself
    obtain ⟨rfl, behind⟩ := List.cons.inj bytes
    obtain ⟨rest, back, rfl, inTurn, same⟩ := plain_of_continues continues spelled behind
    exact ⟨_, rest, back, rfl, itself (.inl high), inTurn, same⟩

theorem chars_of_pieces {cs : List Char} (spelled : Bytes.InTurn Shown ps raw)
    (bytes : Piece.bytes ps = cs.flatMap String.utf8EncodeChar) :
    Bytes.InTurn CharSpelled cs raw := by
  induction cs generalizing ps raw with
  | nil =>
      obtain rfl : ps = [] :=
        Classical.byContradiction fun filled => ne_nil_of_bytes spelled filled bytes
      cases spelled
      exact .nil
  | cons c cs ih =>
      rw [List.flatMap_cons] at bytes
      match ps, spelled with
      | [], _ => exact absurd (List.append_eq_nil_iff.1 bytes.symm).1 String.utf8EncodeChar_ne_nil
      | .plain y :: ps, .cons first behind =>
          rw [Piece.bytes_plain] at bytes
          obtain ⟨front, rest, back, same, char, others, tail⟩ := char_of_plain first behind bytes
          rw [same]
          exact .cons char (ih others tail)
      | .unit n :: ps, spelled =>
          obtain ⟨m, front, rest, back, small, rfl, others, start, char⟩ := unit_cases spelled
          rw [start, utf8EncodeChar_eq] at bytes
          obtain ⟨value, tail⟩ := codePointBytes_append_inj small (toNat_char_lt c) bytes
          exact .cons (char c value.symm) (ih others tail)

end Soundness

/-- The contents of a string are a text exactly if they spell its characters. -/
theorem stringText?_eq_some_iff {raw : Bytes} {s : String} :
    stringText? raw = some s ↔ Bytes.InTurn CharSpelled s.toList raw := by
  rw [stringText?_eq_some_iff_pieces, Bytes.ofText_eq_flatMap]
  constructor
  · rintro ⟨ps, spelled, bytes⟩
    exact chars_of_pieces spelled bytes
  · exact pieces_of_chars

end ContractHost.Json
