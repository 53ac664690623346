import ContractHost.CapabilityReport
import ContractHost.Proofs.Wasm.Grammar

/-!
How often the loops of the reader go round.

A module is walked over once: section after section, and the items of each before the next one.
`walk` is that walk with every round of it on record, and it finds what `exports` finds. How many
items a section holds is declared by its own bytes, and they may declare any number; what bounds the
rounds are the bytes that are there. Every item takes up three bytes at least and every section two,
so a section that declares more than it has room for ends the walk, and the walk is never longer
than the bytes allow (`walk_bounded`).
-/

namespace ContractHost.Wasm

/-- A round of the walk: the section that is read, if one can be read, and how many of its items
are begun. -/
inductive Round where
  | unread
  | read (s : Section) (items : Nat)

/-- Reads counted items, and tells how many were begun. -/
def walkExports : Nat → Bytes → Option (List Export) × Nat
  | 0, _ => (some [], 0)
  | n + 1, b =>
    match readExport b with
    | none => (none, 1)
    | some (e, rest) => ((walkExports n rest).1.map (e :: ·), (walkExports n rest).2 + 1)

def Section.walk (s : Section) : Option (List Export) × Nat :=
  if s.id = exportSection then
    match Leb128.read s.body with
    | none => (none, 0)
    | some (count, rest) => walkExports count rest
  else (some [], 0)

/-- Reads sections with their items, up to the first failure or the end of the bytes. -/
def walkSections (b : Bytes) : Option (List Export) × List Round :=
  if b.isEmpty then (some [], [])
  else
    match _h : readSection b with
    | none => (none, [.unread])
    | some (s, rest) =>
      match s.walk with
      | (none, items) => (none, [.read s items])
      | (some es, items) =>
        ((walkSections rest).1.map (es ++ ·), .read s items :: (walkSections rest).2)
termination_by b.length
decreasing_by all_goals exact length_lt_of_readSection _h

/-- Walks over a module. Bytes that do not begin like one are not walked over. -/
def walk (code : Bytes) : Option (List Export) × List Round :=
  match header.isPrefixOf? code with
  | none => (none, [])
  | some rest => walkSections rest

/-! ### What the walk finds -/

theorem walkExports_fst (n : Nat) (b : Bytes) : (walkExports n b).1 = readExports n b := by
  induction n generalizing b with
  | zero => rfl
  | succ n ih =>
      simp only [walkExports, readExports, Option.bind_eq_bind]
      cases readExport b with
      | none => rfl
      | some found =>
          simp only [Option.bind_some, ih]
          cases readExports n found.2 <;> rfl

theorem Section.walk_fst (s : Section) : s.walk.1 = s.exports := by
  unfold Section.walk Section.exports
  split
  · simp only [Option.bind_eq_bind]
    cases Leb128.read s.body with
    | none => rfl
    | some counted => exact walkExports_fst _ _
  · rfl

def itemsOf (sections : List Section) : Option (List Export) :=
  (sections.mapM Section.exports).map List.flatten

theorem itemsOf_cons (s : Section) (sections : List Section) :
    itemsOf (s :: sections) = s.exports.bind fun es => (itemsOf sections).map (es ++ ·) := by
  simp only [itemsOf, List.mapM_cons, Option.bind_eq_bind]
  cases s.exports with
  | none => rfl
  | some es => cases sections.mapM Section.exports <;> rfl

/-- Walking over sections finds what reading all sections first and then their items finds. -/
theorem walkSections_fst (b : Bytes) : (walkSections b).1 = (readSections b).bind itemsOf := by
  fun_induction walkSections b with
  | case1 b empty =>
      obtain rfl := List.isEmpty_iff.1 empty
      rw [readSections_nil]
      rfl
  | case2 b filled unread =>
      rw [readSections_of_unread filled unread]
      rfl
  | case3 b filled s rest read items failed =>
      -- The sections behind this one are not looked at; whether they can be read does not matter.
      have fails : s.exports = none := by rw [← s.walk_fst, failed]
      rw [readSections_of_read read]
      cases readSections rest with
      | none => rfl
      | some later => simp [itemsOf_cons, fails]
  | case4 b filled s rest read es items walked ih =>
      have counts : s.exports = some es := by rw [← s.walk_fst, walked]
      rw [ih, readSections_of_read read]
      cases readSections rest with
      | none => rfl
      | some later => simp [itemsOf_cons, counts]

theorem exports_eq (code : Bytes) :
    exports code = (header.isPrefixOf? code).bind fun rest => (readSections rest).bind itemsOf := by
  unfold itemsOf
  simp only [exports, Option.bind_eq_bind, Option.map_eq_bind]
  rfl

theorem walk_fst (code : Bytes) : (walk code).1 = exports code := by
  rw [exports_eq]
  unfold walk
  cases header.isPrefixOf? code with
  | none => rfl
  | some rest => exact walkSections_fst rest

/-! ### What items and sections take up -/

namespace Leb128

theorem Spelled.length_pos {n : Nat} {b : Bytes} (spelled : Spelled n b) : 1 ≤ b.length :=
  List.length_pos_iff.2 spelled.digits.ne_nil

end Leb128

/-- An item takes up a byte for the length of its name, one for its kind and one for its index, at
least. -/
theorem Export.Spelled.three_le (e : Export) (b : Bytes) (spelled : e.Spelled b) :
    3 ≤ b.length := by
  obtain ⟨length, index, i, long, indexed, rfl⟩ := spelled
  have first := long.length_pos
  have last := indexed.length_pos
  simp only [List.length_append, List.length_cons]
  omega

theorem Section.Spelled.two_le (s : Section) (b : Bytes) (spelled : s.Spelled b) :
    2 ≤ b.length := by
  obtain ⟨size, long, rfl⟩ := spelled
  have sized := long.length_pos
  simp only [List.length_append, List.length_cons]
  omega

theorem readExport_takes : Bytes.Takes readExport 3 := readExport_reads.takes Export.Spelled.three_le

theorem readSection_takes : Bytes.Takes readSection 2 :=
  readSection_reads.takes Section.Spelled.two_le

/-! ### How often the loops go round -/

/-- Three bytes are left behind by every item but the one at which reading ends. -/
theorem walkExports_snd_le (n : Nat) (b : Bytes) : 3 * (walkExports n b).2 ≤ b.length + 3 := by
  induction n generalizing b with
  | zero => exact Nat.zero_le _
  | succ n ih =>
      rw [walkExports]
      split
      · show 3 * 1 ≤ _
        omega
      · next e rest read =>
        have taken := readExport_takes b e rest read
        have others := ih rest
        show 3 * ((walkExports n rest).2 + 1) ≤ _
        omega

theorem Section.walk_snd_le (s : Section) : s.walk.2 ≤ s.body.length / 3 + 1 := by
  unfold Section.walk
  split
  · split
    · exact Nat.zero_le _
    · next count rest counted =>
      have shorter := Leb128.length_lt_of_read counted
      have begun := walkExports_snd_le count rest
      omega
  · exact Nat.zero_le _

theorem length_walkSections_le (b : Bytes) : 2 * (walkSections b).2.length ≤ b.length + 1 := by
  fun_induction walkSections b with
  | case1 b empty => exact Nat.zero_le _
  | case2 b filled unread =>
      have room := List.length_pos_iff.2 (mt List.isEmpty_iff.2 filled)
      show 2 * 1 ≤ _
      omega
  | case3 b filled s rest read items failed =>
      have taken := readSection_takes b s rest read
      show 2 * 1 ≤ _
      omega
  | case4 b filled s rest read es items walked ih =>
      have taken := readSection_takes b s rest read
      show 2 * ((walkSections rest).2.length + 1) ≤ _
      omega

theorem eq_walk_of_mem {b : Bytes} {s : Section} {items : Nat}
    (mem : .read s items ∈ (walkSections b).2) : items = s.walk.2 := by
  fun_induction walkSections b with
  | case1 b empty => cases mem
  | case2 b filled unread => simp at mem
  | case3 b filled s' rest read items' failed =>
      cases List.mem_singleton.1 mem
      rw [failed]
  | case4 b filled s' rest read es items' walked ih =>
      rcases List.mem_cons.1 mem with here | later
      · cases here
        rw [walked]
      · exact ih later

/-- The header takes up bytes as well, so that half the length leaves room for a last round. -/
theorem length_walk_le (code : Bytes) : (walk code).2.length ≤ code.length / 2 := by
  unfold walk
  split
  · exact Nat.zero_le _
  · next rest found =>
    have begun := List.isPrefixOf?_eq_some_iff_append_eq.1 found
    have rounds := length_walkSections_le rest
    have eight : header.length = 8 := rfl
    rw [← begun, List.length_append, eight]
    omega

theorem items_le_of_mem {code : Bytes} {s : Section} {items : Nat}
    (mem : .read s items ∈ (walk code).2) : items ≤ s.body.length / 3 + 1 := by
  unfold walk at mem
  split at mem
  · cases mem
  · rw [eq_walk_of_mem mem]
    exact s.walk_snd_le

theorem walkExports_snd_of_read {n : Nat} {b : Bytes} {es : List Export}
    (read : readExports n b = some es) : (walkExports n b).2 = es.length := by
  induction n generalizing b es with
  | zero =>
      cases read
      rfl
  | succ n ih =>
      simp only [readExports, Option.bind_eq_bind, Option.bind_eq_some_iff, Prod.exists] at read
      obtain ⟨e, rest, first, others, later, eq⟩ := read
      cases eq
      rw [walkExports, first]
      show (walkExports n rest).2 + 1 = _
      rw [ih later]
      rfl

theorem Section.walk_of_counts {s : Section} {es : List Export} (counts : s.Counts es) :
    s.walk = (some es, es.length) := by
  unfold Section.Counts at counts
  unfold Section.walk
  split at counts
  · next isExport =>
    obtain ⟨count, entries, rest, counted, inTurn, body⟩ := counts
    have read : readExports es.length (entries ++ rest) = some es :=
      readExports_eq_some_iff.2 ⟨rfl, entries, rest, inTurn, rfl⟩
    rw [if_pos isExport, body, Leb128.reads.append counted]
    exact Prod.ext ((walkExports_fst _ _).trans read) (walkExports_snd_of_read read)
  · next other =>
    rw [if_neg other, counts]
    rfl

theorem walkSections_of_read {b rest : Bytes} {s : Section} (read : readSection b = some (s, rest)) :
    walkSections b = (s.walk.1.bind fun es => (walkSections rest).1.map (es ++ ·),
      .read s s.walk.2 :: if s.walk.1.isSome then (walkSections rest).2 else []) := by
  rw [walkSections, if_neg (filled_of_read read)]
  split
  · next unread => cases unread.symm.trans read
  · next read' =>
    cases read.symm.trans read'
    split
    · next failed => simp [failed]
    · next walked => simp [walked]

theorem walk_snd_of_counts {code : Bytes} {sections : List Section} {items : List (List Export)}
    (module : Module sections code) (counts : List.Forall₂ Section.Counts sections items) :
    (walk code).2 = List.zipWith (fun s es => .read s es.length) sections items := by
  obtain ⟨parts, inTurn, rfl⟩ := module
  have found : header.isPrefixOf? (header ++ parts) = some parts :=
    List.isPrefixOf?_eq_some_iff_append_eq.2 rfl
  unfold walk
  rw [found]
  show (walkSections parts).2 = _
  clear found
  induction inTurn generalizing items with
  | nil =>
      cases counts
      rw [walkSections]
      rfl
  | cons first _ ih =>
      cases counts with
      | cons here later =>
          rw [walkSections_of_read (readSection_reads.append first _), Section.walk_of_counts here,
            List.zipWith_cons_cons, ← ih later]
          rfl

/-! ### Declarations without the bytes for them -/

/-- An export section that declares more items than there is room for behind the declaration, at
three bytes an item. -/
def Section.Overstates (s : Section) : Prop :=
  s.id = exportSection ∧ ∃ n count rest, Leb128.Spelled n count ∧ s.body = count ++ rest ∧
    rest.length < 3 * n

theorem Section.Overstates.exports {s : Section} (overstates : s.Overstates) : s.exports = none := by
  obtain ⟨isExport, n, count, rest, counted, body, short⟩ := overstates
  refine Option.eq_none_iff_forall_ne_some.2 fun items read => ?_
  have counts := Section.exports_eq_some_iff.1 read
  rw [Section.Counts, if_pos isExport] at counts
  obtain ⟨count', entries, rest', counted', inTurn, body'⟩ := counts
  -- A number is read in one way only, so there are as many items as are declared.
  have declared : some (n, rest) = some (items.length, entries ++ rest') := by
    rw [← Leb128.reads.append counted rest, ← Leb128.reads.append counted' (entries ++ rest'),
      ← body, ← body']
  cases declared
  have taken := inTurn.length_le Export.Spelled.three_le
  rw [List.length_append] at short
  omega

/-- A section stands in a code, behind the header and sections that can be read, whatever follows
it. -/
def Holds (code : Bytes) (s : Section) : Prop :=
  ∃ before front part rest, Bytes.InTurn Section.Spelled before front ∧ s.Spelled part ∧
    code = header ++ (front ++ (part ++ rest))

theorem readSections_append {before : List Section} {front : Bytes}
    (inTurn : Bytes.InTurn Section.Spelled before front) (rest : Bytes) :
    readSections (front ++ rest) = (readSections rest).map (before ++ ·) := by
  induction inTurn with
  | nil => simp
  | @cons s before part front first _ ih =>
      rw [List.append_assoc, readSections_of_read (readSection_reads.append first _), ih,
        Option.map_map]
      rfl

theorem exports_of_holds {code : Bytes} {s : Section} (holds : Holds code s)
    (fails : s.exports = none) : exports code = none := by
  obtain ⟨before, front, part, rest, inTurn, first, rfl⟩ := holds
  have found : header.isPrefixOf? (header ++ (front ++ (part ++ rest))) =
      some (front ++ (part ++ rest)) := List.isPrefixOf?_eq_some_iff_append_eq.2 rfl
  rw [exports_eq, found, Option.bind_some, readSections_append inTurn,
    readSections_of_read (readSection_reads.append first rest)]
  cases readSections rest with
  | none => rfl
  | some later =>
      have mem : s ∈ before ++ s :: later := List.mem_append_right _ List.mem_cons_self
      show itemsOf (before ++ s :: later) = none
      rw [itemsOf, mapM_eq_none mem fails]
      rfl

/-- The bytes bound the walk over a module, and not the numbers that they declare. A code with an
export section in it that declares more items than it has room for exports nothing. Every item that
is read takes up three bytes, and every section two; and the walk finds what a code exports in no
more rounds than half its length, each of which begins no more items than a third of its section has
bytes, and one. If all can be read, there is a round for each section, and it begins the items that
the section counts. -/
theorem walk_bounded (code : Bytes) :
    (∀ s, Holds code s → s.Overstates →
      exportedFunctions code = none ∧ CapabilityReport.inspect code = .none) ∧
    Bytes.Takes readExport 3 ∧ Bytes.Takes readSection 2 ∧
    (walk code).1 = exports code ∧ (walk code).2.length ≤ code.length / 2 ∧
    (∀ s items, .read s items ∈ (walk code).2 → items ≤ s.body.length / 3 + 1) ∧
    ∀ sections items, Module sections code → List.Forall₂ Section.Counts sections items →
      (walk code).2 = List.zipWith (fun s es => .read s es.length) sections items := by
  refine ⟨fun s holds overstates => ?_, readExport_takes, readSection_takes, walk_fst code,
    length_walk_le code, fun _ _ => items_le_of_mem, fun _ _ => walk_snd_of_counts⟩
  have unread : exportedFunctions code = none := by
    rw [exportedFunctions, exports_of_holds holds overstates.exports]
    rfl
  refine ⟨unread, ?_⟩
  rw [CapabilityReport.inspect, unread]

/-- A section that declares the greatest number of items there can be. One stands behind that, and
then a byte that begins another. -/
def boast : Section where
  id := exportSection
  body := [0xFF, 0xFF, 0xFF, 0xFF, 0xFF, 0xFF, 0xFF, 0xFF, 0xFF, 0x01, 0x00, 0x00, 0x00, 0x00]

/-- The code with that section goes on, but the walk ends in the section, with the second item. -/
theorem walk_bounded_boast :
    exportedFunctions (header ++ [0x07, 0x0E] ++ boast.body ++ [0x00, 0x00]) = none ∧
      (walk (header ++ [0x07, 0x0E] ++ boast.body ++ [0x00, 0x00])).2 = [.read boast 2] := by
  have counted : Leb128.read boast.body = some (18446744073709551615, [0x00, 0x00, 0x00, 0x00]) := by
    decide
  have sized : Leb128.read [0x0E] = some (14, []) := by decide
  obtain ⟨count, body, declared⟩ := (Leb128.reads _ _ _).1 counted
  obtain ⟨size, sizeBytes, long⟩ := (Leb128.reads _ _ _).1 sized
  have overstates : boast.Overstates := ⟨rfl, _, count, _, declared, body, by decide⟩
  have holds : Holds (header ++ [0x07, 0x0E] ++ boast.body ++ [0x00, 0x00]) boast := by
    refine ⟨[], [], 0x07 :: 0x0E :: boast.body, [0x00, 0x00], .nil, ⟨size, long, ?_⟩, rfl⟩
    rw [List.append_nil] at sizeBytes
    rw [← sizeBytes]
    rfl
  have read : readSection ([0x07, 0x0E] ++ boast.body ++ [0x00, 0x00]) =
      some (boast, [0x00, 0x00]) := rfl
  have failed : boast.walk = (none, 2) := rfl
  have rounds : (walkSections ([0x07, 0x0E] ++ boast.body ++ [0x00, 0x00])).2 =
      [.read boast 2] := by
    rw [walkSections_of_read read, failed]
    rfl
  exact ⟨((walk_bounded _).1 boast holds overstates).1, rounds⟩

end ContractHost.Wasm
