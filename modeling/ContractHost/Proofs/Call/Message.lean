import ContractHost.Proofs.Json.Meaning
import ContractHost.Proofs.Json.Parse
import ContractHost.Proofs.Msgpack.Value
import ContractHost.Vm.Call

/-!
Messages become arguments. What a message says is a matter of the grammar of JSON texts and of what
they mean; what it becomes is the canonical form of what it says (`decode_canonical`).

The document of a tree is the only canonical one that says what the tree says
(`ofTree?_eq_some_iff`), so nothing of the text is left in it but that.
-/

namespace ContractHost.Message

open Json (Tree ItemsMean MembersMean)

/-- A document as messages make them: the names in it ascend, its integers have 64 bits, and lists
and maps are nested at most so deep. -/
structure Canonical (depth : Nat) (d : Doc) : Prop where
  ordered : d.Ordered
  words : d.Words
  nested : d.depth ≤ depth

namespace Canonical

variable {depth : Nat} {d : Doc} {items : List Doc} {entries : List (String × Doc)}

theorem single (alone : d.parts = [d]) (ordered : d.OrderedHere) (word : d.WordHere)
    (flat : d.depth = 0) : Canonical depth d where
  ordered := by simpa [Doc.Ordered, alone] using ordered
  words := by simpa [Doc.Words, alone] using word
  nested := flat ▸ Nat.zero_le depth

theorem list (each : ∀ d ∈ items, Canonical depth d) : Canonical (depth + 1) (.list items) where
  ordered := Doc.forall_parts_list.2 ⟨trivial, fun d mem => (each d mem).ordered⟩
  words := Doc.forall_parts_list.2 ⟨trivial, fun d mem => (each d mem).words⟩
  nested := Nat.succ_le_succ (Doc.itemsDepth_le_iff.2 fun d mem => (each d mem).nested)

theorem map (ascending : Ascending entries) (each : ∀ e ∈ entries, Canonical depth e.2) :
    Canonical (depth + 1) (.map entries) where
  ordered := Doc.forall_parts_map.2
    ⟨Doc.ascending_iff.1 ascending, fun e mem => (each e mem).ordered⟩
  words := Doc.forall_parts_map.2 ⟨trivial, fun e mem => (each e mem).words⟩
  nested := Nat.succ_le_succ (Doc.entriesDepth_le_iff.2 fun e mem => (each e mem).nested)

end Canonical

mutual

theorem means_of_ofTree? : ∀ {depth : Nat} {t : Tree} {d : Doc},
    ofTree? depth t = some d → t.Means depth d.value ∧ Canonical depth d
  | depth, .null, d, made => by
    simp only [ofTree?] at made
    cases made
    exact ⟨.null, .single rfl trivial trivial rfl⟩
  | depth, .bool b, d, made => by
    simp only [ofTree?] at made
    cases made
    exact ⟨.bool b, .single rfl trivial trivial rfl⟩
  | depth, .number n, d, made => by
    simp only [ofTree?] at made
    split at made
    · cases made
    · next i value =>
      cases made
      obtain ⟨i', whole, ⟨⟩⟩ | ⟨-, bits, -, ⟨⟩⟩ := Json.Numeral.value?_eq_some_iff.1 value
      exact ⟨.int whole, .single rfl trivial ⟨whole.least, whole.most⟩ rfl⟩
    · next bits value =>
      cases made
      obtain ⟨i', whole, ⟨⟩⟩ | ⟨other, bits', nearest, ⟨⟩⟩ :=
        Json.Numeral.value?_eq_some_iff.1 value
      exact ⟨.double other nearest, .single rfl trivial trivial rfl⟩
  | depth, .string raw, d, made => by
    simp only [ofTree?] at made
    obtain ⟨s, text, rfl⟩ := Option.map_eq_some_iff.1 made
    exact ⟨.text (Json.stringText?_eq_some_iff.1 text), .single rfl trivial trivial rfl⟩
  | 0, .array items, d, made => by
    simp only [ofTree?] at made
    cases made
  | depth + 1, .array items, d, made => by
    simp only [ofTree?] at made
    obtain ⟨ds, each, rfl⟩ := Option.map_eq_some_iff.1 made
    obtain ⟨means, canonical⟩ := means_of_ofItems? each
    exact ⟨.list means, .list canonical⟩
  | 0, .object members, d, made => by
    simp only [ofTree?] at made
    cases made
  | depth + 1, .object members, d, made => by
    simp only [ofTree?] at made
    obtain ⟨ds, each, rfl⟩ := Option.map_eq_some_iff.1 made
    obtain ⟨means, canonical⟩ := means_of_ofMembers? each
    rw [Doc.value_ofList]
    exact ⟨.map means, .map (Table.ofList ds).ascending fun e mem =>
      canonical e (Table.mem_of_mem_ofList mem)⟩

theorem means_of_ofItems? : ∀ {depth : Nat} {items : List Tree} {ds : List Doc},
    ofItems? depth items = some ds →
      ItemsMean depth items (Doc.itemValues ds) ∧ ∀ d ∈ ds, Canonical depth d
  | depth, [], ds, made => by
    simp only [ofItems?] at made
    cases made
    exact ⟨.nil, List.forall_mem_nil _⟩
  | depth, t :: items, ds, made => by
    simp only [ofItems?] at made
    split at made
    · next first others =>
      cases made
      obtain ⟨means, canonical⟩ := means_of_ofTree? first
      obtain ⟨mean, canonicals⟩ := means_of_ofItems? others
      exact ⟨.cons means mean, List.forall_mem_cons.2 ⟨canonical, canonicals⟩⟩
    · cases made

theorem means_of_ofMembers? : ∀ {depth : Nat} {members : List (Bytes × Tree)}
    {ds : List (String × Doc)}, ofMembers? depth members = some ds →
      MembersMean depth members (Doc.entryValues ds) ∧ ∀ e ∈ ds, Canonical depth e.2
  | depth, [], ds, made => by
    simp only [ofMembers?] at made
    cases made
    exact ⟨.nil, List.forall_mem_nil _⟩
  | depth, (k, t) :: members, ds, made => by
    simp only [ofMembers?] at made
    split at made
    · next text first others =>
      cases made
      obtain ⟨means, canonical⟩ := means_of_ofTree? first
      obtain ⟨mean, canonicals⟩ := means_of_ofMembers? others
      exact ⟨.cons (Json.stringText?_eq_some_iff.1 text) means mean,
        List.forall_mem_cons.2 ⟨canonical, canonicals⟩⟩
    · cases made

end

mutual

theorem exists_ofTree? : ∀ {depth : Nat} {t : Tree} {v : Value}, t.Means depth v →
    ∃ d, ofTree? depth t = some d ∧ d.value = v
  | _, _, _, .null => ⟨.null, by simp only [ofTree?], rfl⟩
  | _, _, _, .bool b => ⟨.bool b, by simp only [ofTree?], rfl⟩
  | _, _, _, .int whole => by
    refine ⟨.int _, ?_, rfl⟩
    simp only [ofTree?, Json.Numeral.value?_eq_of_isInteger whole]
  | _, _, _, .double other nearest => by
    refine ⟨.double _, ?_, rfl⟩
    simp only [ofTree?, Json.Numeral.value?_eq_of_not_isInteger other, nearest, Option.map_some]
  | _, _, _, .text spelled => by
    refine ⟨.text _, ?_, rfl⟩
    simp only [ofTree?, Json.stringText?_eq_some_iff.2 spelled, Option.map_some]
  | _, _, _, .list each => by
    obtain ⟨ds, made, rfl⟩ := exists_ofItems? each
    exact ⟨.list ds, by simp only [ofTree?, made, Option.map_some], rfl⟩
  | _, _, _, .map each => by
    obtain ⟨ds, made, rfl⟩ := exists_ofMembers? each
    exact ⟨.map (Table.ofList ds).entries, by simp only [ofTree?, made, Option.map_some],
      Doc.value_ofList ds⟩

theorem exists_ofItems? : ∀ {depth : Nat} {items : List Tree} {values : List Value},
    ItemsMean depth items values → ∃ ds, ofItems? depth items = some ds ∧ Doc.itemValues ds = values
  | _, _, _, .nil => ⟨[], by simp only [ofItems?], rfl⟩
  | _, _, _, .cons first others => by
    obtain ⟨d, here, rfl⟩ := exists_ofTree? first
    obtain ⟨ds, rest, rfl⟩ := exists_ofItems? others
    exact ⟨d :: ds, by simp only [ofItems?, here, rest], rfl⟩

theorem exists_ofMembers? : ∀ {depth : Nat} {members : List (Bytes × Tree)}
    {named : List (String × Value)}, MembersMean depth members named →
      ∃ ds, ofMembers? depth members = some ds ∧ Doc.entryValues ds = named
  | _, _, _, .nil => ⟨[], by simp only [ofMembers?], rfl⟩
  | _, _, _, .cons spelled first others => by
    obtain ⟨d, here, rfl⟩ := exists_ofTree? first
    obtain ⟨ds, rest, rfl⟩ := exists_ofMembers? others
    refine ⟨(_, d) :: ds, ?_, rfl⟩
    simp only [ofMembers?, Json.stringText?_eq_some_iff.2 spelled, here, rest]

end

/-- The document of a tree is the canonical one that says the same. -/
theorem ofTree?_eq_some_iff {depth : Nat} {t : Tree} {d : Doc} :
    ofTree? depth t = some d ↔ t.Means depth d.value ∧ Canonical depth d := by
  refine ⟨means_of_ofTree?, fun ⟨means, canonical⟩ => ?_⟩
  obtain ⟨e, made, same⟩ := exists_ofTree? means
  rw [made, Doc.eq_of_value_eq (means_of_ofTree? made).2.ordered canonical.ordered same]

/-- Tabs, line feeds, form feeds, carriage returns and spaces, and nothing else. -/
def Blank (msg : Bytes) : Prop :=
  ∀ c ∈ msg, c = 0x09 ∨ c = 0x0A ∨ c = 0x0C ∨ c = 0x0D ∨ c = 0x20

/-- The message is a JSON text that says a value, with arrays and objects nested at most 127
deep. -/
def Denotes (msg : Bytes) (v : Value) : Prop := ∃ t : Tree, t.Padded msg ∧ t.Means 127 v

section Decode

variable {msg : Bytes} {v : Value} {d : Doc} {named : String → Option Value}

theorem all_isBlank_iff : msg.all isBlank = true ↔ Blank msg := by
  simp [Blank, isBlank, or_assoc]

theorem isBlank_of_isWordByte {c : UInt8} (word : Json.isWordByte c = true) :
    isBlank c = false := by
  refine Bool.eq_false_iff.2 fun blank => ?_
  simp only [isBlank, Bool.or_eq_true, beq_iff_eq] at blank
  rcases blank with (((rfl | rfl) | rfl) | rfl) | rfl <;> cases word

theorem exists_of_spelled {t : Tree} {b : Bytes} (spelled : t.Spelled b) :
    ∃ c ∈ b, isBlank c = false := by
  cases spelled with
  | number numeral =>
      obtain ⟨filled, word⟩ := numeral.word
      obtain ⟨c, rest, rfl⟩ := List.exists_cons_of_ne_nil filled
      exact ⟨c, List.mem_cons_self, isBlank_of_isWordByte (word c List.mem_cons_self)⟩
  | _ => exact ⟨_, List.mem_cons_self, rfl⟩

theorem Denotes.not_blank (denotes : Denotes msg v) : ¬ Blank msg := by
  obtain ⟨t, ⟨-, value, -⟩, -⟩ := denotes
  obtain ⟨c, mem, other⟩ := exists_of_spelled value
  rw [← all_isBlank_iff, List.all_eq_true]
  intro blank
  have here := blank c (List.mem_append_right _ (List.mem_append_left _ mem))
  rw [other] at here
  cases here

/-- The document of a message is the canonical one that says what the message says. -/
theorem document_eq_some_iff : (Tree.parse msg).bind (ofTree? maxDepth) = some d ↔
    Denotes msg d.value ∧ Canonical maxDepth d := by
  simp only [Option.bind_eq_some_iff, Json.parse_eq_some_iff_padded, ofTree?_eq_some_iff, Denotes,
    ← and_assoc, exists_and_right]
  rfl

theorem Denotes.document (denotes : Denotes msg v) :
    ∃ d, (Tree.parse msg).bind (ofTree? maxDepth) = some d ∧ d.value = v ∧
      Canonical maxDepth d := by
  obtain ⟨t, text, means⟩ := denotes
  obtain ⟨d, made, rfl⟩ := exists_ofTree? means
  refine ⟨d, ?_, rfl, (means_of_ofTree? made).2⟩
  rw [Json.parse_eq_some_iff_padded.2 text]
  exact made

theorem Denotes.unique {w : Value} (denotes : Denotes msg v) (denotes' : Denotes msg w) :
    v = w := by
  obtain ⟨d, document, rfl, -⟩ := denotes.document
  obtain ⟨d', document', rfl, -⟩ := denotes'.document
  rw [Option.some.inj (document.symm.trans document')]

theorem parse_of_blank (blank : Blank msg) : parse msg = .ok (.map []) := by
  rw [parse, if_pos (all_isBlank_iff.2 blank)]

theorem parse_of_null (denotes : Denotes msg .null) : parse msg = .ok (.map []) := by
  obtain ⟨d, document, value, -⟩ := denotes.document
  obtain rfl : d = .null := by
    cases d with
    | null => rfl
    | _ => cases value
  rw [parse, if_neg (mt all_isBlank_iff.1 denotes.not_blank), document]

theorem parse_of_map (denotes : Denotes msg (.map named)) :
    ∃ d, parse msg = .ok d ∧ d.value = .map named ∧ Canonical maxDepth d := by
  obtain ⟨d, document, value, canonical⟩ := denotes.document
  refine ⟨d, ?_, value, canonical⟩
  cases d with
  | map entries => rw [parse, if_neg (mt all_isBlank_iff.1 denotes.not_blank), document]
  | _ => cases value

theorem parse_of_other (filled : ¬ Blank msg) (null : ¬ Denotes msg .null)
    (map : ∀ named, ¬ Denotes msg (.map named)) : ∃ e, parse msg = .error e := by
  rw [parse, if_neg (mt all_isBlank_iff.1 filled)]
  split
  · exact ⟨_, rfl⟩
  · next document => exact absurd (document_eq_some_iff.1 document).1 (map _)
  · next document => exact absurd (document_eq_some_iff.1 document).1 null
  · exact ⟨_, rfl⟩

/-- A call with a message that is none fails before it uses any gas. -/
theorem call_of_error (vm : Vm) {r : CallRequest} {e : Error} (failed : decode r.msg = .error e)
    (w : World) : vm.call r w =
      (.error ⟨.serialization e.message, 0⟩, { w with callTank := .new r.limit r.meter }) := by
  simp only [Vm.call, Vm.perform, Vm.prepare, failed]
  rfl

theorem decode_of_parse (parsed : parse msg = .ok d) : decode msg = .ok (Msgpack.write d) := by
  rw [decode, parsed]
  rfl

end Decode

/-- A message is decoded exactly if it is blank or says null or an object; a call with another one
fails, before it uses any gas. Blank messages and null become the empty map. An object becomes the
one document that says the same with its names ascending at every level, and what is written for the
document says the same again if its lengths have 32 bits. So messages that say the same object
become the same arguments. -/
theorem decode_canonical (msg : Bytes) :
    ((∃ args, decode msg = .ok args) ↔
      Blank msg ∨ Denotes msg .null ∨ ∃ named, Denotes msg (.map named)) ∧
    (∀ e, decode msg = .error e → ∀ (vm : Vm) (r : CallRequest) (w : World), r.msg = msg →
      vm.call r w =
        (.error ⟨.serialization e.message, 0⟩, { w with callTank := .new r.limit r.meter })) ∧
    (Blank msg ∨ Denotes msg .null → decode msg = .ok [0x80]) ∧
    (∀ named, Denotes msg (.map named) → ∃ d : Doc, d.Ordered ∧ d.value = .map named ∧
      decode msg = .ok (Msgpack.write d) ∧
        (d.Short → Msgpack.value? (Msgpack.write d) = some (.map named))) ∧
    ∀ other named, Denotes msg (.map named) → Denotes other (.map named) →
      decode msg = decode other := by
  have empty : Blank msg ∨ Denotes msg .null → decode msg = .ok [0x80] := by
    rintro (blank | null)
    · exact decode_of_parse (parse_of_blank blank)
    · exact decode_of_parse (parse_of_null null)
  refine ⟨⟨?_, ?_⟩, ?_, empty, ?_, ?_⟩
  · rintro ⟨args, decoded⟩
    refine Classical.byContradiction fun none => ?_
    simp only [not_or, not_exists] at none
    obtain ⟨filled, null, map⟩ := none
    obtain ⟨e, failed⟩ := parse_of_other filled null map
    rw [decode, failed] at decoded
    cases decoded
  · rintro (blank | null | ⟨named, map⟩)
    · exact ⟨_, empty (.inl blank)⟩
    · exact ⟨_, empty (.inr null)⟩
    · obtain ⟨d, parsed, -⟩ := parse_of_map map
      exact ⟨_, decode_of_parse parsed⟩
  · rintro e failed vm r w rfl
    exact call_of_error vm failed w
  · intro named denotes
    obtain ⟨d, parsed, value, canonical⟩ := parse_of_map denotes
    refine ⟨d, canonical.ordered, value, decode_of_parse parsed, fun short => ?_⟩
    rw [← value]
    exact Msgpack.value?_write short canonical.words (Nat.le_trans canonical.nested (by decide))
  · intro other named denotes denotes'
    obtain ⟨d, parsed, value, canonical⟩ := parse_of_map denotes
    obtain ⟨d', parsed', value', canonical'⟩ := parse_of_map denotes'
    obtain rfl := Doc.eq_of_value_eq canonical.ordered canonical'.ordered (value.trans value'.symm)
    rw [decode_of_parse parsed, decode_of_parse parsed']

/-- Of a member that stands twice the last one counts, and the names ascend. -/
example : decode (Bytes.ofText " \x7b\"b\": 1, \"a\": [null], \"\\u0062\": 2\x7d ") =
    .ok [0x82, 0xA1, 0x61, 0x91, 0xC0, 0xA1, 0x62, 0x02] := by decide +kernel

/-- The message that has a zero with a sign under one name. -/
def signedZero : Bytes := [0x7B, 0x22, 0x61, 0x22, 0x3A, 0x2D, 0x30, 0x7D]

theorem decode_signedZero : decode signedZero ≠ .ok (Msgpack.write (.map [("a", .int 0)])) := by
  have parsed : Tree.parse signedZero =
      some (.object [([0x61], .number ⟨true, [0], none, none⟩)]) := rfl
  have value := Json.Numeral.value?_eq_of_not_isInteger (n := ⟨true, [0], none, none⟩)
    fun i whole => whole.zero rfl whole.value.symm
  have key : Json.stringText? [0x61] = some "a" := rfl
  have made : ofTree? (126 + 1) (.object [([0x61], .number ⟨true, [0], none, none⟩)]) =
      (Json.Numeral.doubleBits? ⟨true, [0], none, none⟩).map fun bits =>
        .map (Table.ofList [("a", .double bits)]).entries := by
    simp only [ofTree?, ofMembers?, key, value]
    cases Json.Numeral.doubleBits? ⟨true, [0], none, none⟩ <;> rfl
  rw [decode, parse, if_neg (by decide), parsed, Option.bind_some, maxDepth, made]
  cases Json.Numeral.doubleBits? ⟨true, [0], none, none⟩ with
  | none =>
      intro same
      cases same
  | some bits =>
      intro same
      -- the marker of the number stands behind those of the map and the name, and the name
      have marker := congrArg (·[3]?) (Except.ok.inj same)
      exact absurd (Option.some.inj marker) (by decide : (0xCB : UInt8) ≠ 0x00)

def longText (n : Nat) : Bytes :=
  [0x7B, 0x22, 0x22, 0x3A, 0x22] ++ (List.replicate n 0x61 ++ [0x22, 0x7D])

theorem denotes_longText (n : Nat) : Denotes (longText n)
    (.ofMembers [("", .text (String.ofList (List.replicate n (Char.ofNat 0x61))))]) := by
  have letter : Json.CharSpelled (Char.ofNat 0x61) [0x61] := .itself (by decide) (by decide)
  have spelled (n : Nat) : Json.Closed (List.replicate n 0x61) ∧
      Bytes.InTurn Json.CharSpelled (List.replicate n (Char.ofNat 0x61))
        (List.replicate n 0x61) := by
    induction n with
    | zero => exact ⟨.nil, .nil⟩
    | succ n ih => exact ⟨.plain (by decide) (by decide) ih.1, .cons letter ih.2⟩
  obtain ⟨closed, chars⟩ := spelled n
  have text : Tree.Padded (.object [([], .string (List.replicate n 0x61))]) (longText n) := by
    have nil : Json.Blanks [] := List.forall_mem_nil _
    have member := Json.Member.mk nil .nil nil (.mk nil (.string closed) nil)
    have whole := Tree.Padded.mk nil (.object (.one member)) nil
    simpa [longText] using whole
  refine ⟨_, text, .map (.cons .nil (.text ?_) .nil)⟩
  rw [String.toList_ofList]
  exact chars

theorem value?_longText {n : Nat} (long : n = 2 ^ 32) : ∃ named args,
    Denotes (longText n) (.map named) ∧ decode (longText n) = .ok args ∧
      Msgpack.value? args ≠ some (.map named) := by
  have denotes := denotes_longText n
  have length : (Bytes.ofText (String.ofList (List.replicate n (Char.ofNat 0x61)))).length = n := by
    have one : (Char.ofNat 0x61).utf8Size = 1 := rfl
    rw [Bytes.ofText_eq_flatMap, String.toList_ofList]
    simp [List.length_flatMap, one]
  obtain ⟨d, parsed, value, canonical⟩ := parse_of_map denotes
  generalize String.ofList (List.replicate n (Char.ofNat 0x61)) = s at *
  have single : (Doc.map [("", .text s)]).Ordered := by
    simp [Doc.Ordered, Doc.parts, Doc.entriesParts, Doc.OrderedHere]
  obtain rfl := Doc.eq_of_value_eq canonical.ordered single value
  refine ⟨_, _, denotes, decode_of_parse parsed, ?_⟩
  rw [Msgpack.value?_write_wrapped (by decide) (length.trans long)]
  intro same
  cases same

/-- The two ways in which arguments do not say what the message says: a zero with a sign, which is
an integer, becomes a double, and the length of a text of 2^32 bytes is lost. -/
theorem not_decode_faithful :
    (∃ n : Json.Numeral, n.Spelled [0x2D, 0x30] ∧ n.fraction = none ∧ n.exponent = none ∧
      n.integer = 0 ∧ decode signedZero ≠ .ok (Msgpack.write (.map [("a", .int 0)]))) ∧
    ∃ msg named args, Denotes msg (.map named) ∧ decode msg = .ok args ∧
      Msgpack.value? args ≠ some (.map named) := by
  refine ⟨⟨⟨true, [0], none, none⟩, ?_, rfl, rfl, rfl, decode_signedZero⟩, _, value?_longText rfl⟩
  exact Json.Numeral.read_eq_some_iff.1 rfl

end ContractHost.Message
