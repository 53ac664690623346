import ContractHost.Json.Format
import ContractHost.Proofs.Json.Grammar
import ContractHost.Proofs.Json.Text
import ContractHost.Proofs.Wire.Shape

/-!
A document written as JSON, in whatever layout, is parsed as one tree
(`parse_write`), and the tree is taken for that document (`renders`).

What is written is in the grammar of JSON texts, so that nothing has to be said of
tokens here. Containers inherit this from what they hold.
-/

namespace ContractHost.Json

structure Layout.Blank (l : Layout) : Prop where
  newline (depth : Nat) : ∀ b ∈ l.newline depth, isSpace b = true
  colon : ∃ front back, l.colon = front ++ 0x3A :: back ∧ (∀ b ∈ front, isSpace b = true) ∧
    ∀ b ∈ back, isSpace b = true

theorem Layout.blank_compact : Layout.compact.Blank where
  newline _ := List.forall_mem_nil _
  colon := ⟨[], [], rfl, List.forall_mem_nil _, List.forall_mem_nil _⟩

theorem Layout.blank_pretty : Layout.pretty.Blank where
  newline depth := by
    refine List.forall_mem_cons.2 ⟨rfl, fun b mem => ?_⟩
    rw [List.eq_of_mem_replicate mem]
    rfl
  colon := ⟨[], [0x20], rfl, List.forall_mem_nil _, List.forall_mem_singleton.2 rfl⟩

section Texts

variable {w : Bytes}

theorem closed_of_plain (plain : ∀ b ∈ w, b ≠ 0x22 ∧ b ≠ 0x5C) : Closed w := by
  induction w with
  | nil => exact .nil
  | cons b w ih =>
      obtain ⟨⟨quote, backslash⟩, others⟩ := List.forall_mem_cons.1 plain
      exact .plain quote backslash (ih others)

theorem closed_escapeByte (b : UInt8) : Closed (escapeByte b) := by
  by_cases escape : NeedsEscape b
  · obtain ⟨c, digits, written, plain⟩ := escapeByte_of_escape escape
    rw [written]
    exact .escape c (closed_of_plain plain)
  · rw [escapeByte_of_plain escape]
    refine .plain ?_ ?_ .nil
    · exact fun quote => escape (.inl quote)
    · exact fun backslash => escape (.inr (.inl backslash))

theorem closed_escaped (s : String) : Closed (escaped s) := by
  unfold escaped
  induction Bytes.ofText s with
  | nil => exact .nil
  | cons b bytes ih => exact (closed_escapeByte b).append ih

theorem spelled_writeText (s : String) : Tree.Spelled (.string (escaped s)) (writeText s) :=
  .string (closed_escaped s)

theorem spelled_writeInt (i : Int) : Tree.Spelled (.number (.ofInt i)) (writeInt i) :=
  .number (Numeral.read_eq_some_iff.1 (Numeral.read_writeInt i))

end Texts

theorem intercalate_singleton_cons {α : Type} (sep : α) (x : List α) (l : List (List α)) :
    [sep].intercalate (x :: l) = x ++ l.flatMap (sep :: ·) := by
  induction l generalizing x with
  | nil => simp [List.intercalate]
  | cons y l ih =>
      have next := ih y
      simp only [List.intercalate] at next ⊢
      simp [List.intersperse, next]

section Containers

variable {α : Type} {bytes : α → Bytes} {trees : α → Tree} {l : Layout} {items : List α}

/-- Parts with commas between them, of any grammar that puts one more part behind a comma. -/
theorem commas {β : Type} (list : List β → Bytes → Prop) (part : β → Bytes → Prop)
    (one : ∀ {x b}, part x b → list [x] b)
    (more : ∀ {xs x front b}, list xs front → part x b → list (xs ++ [x]) (front ++ 0x2C :: b))
    {value : α → β} (each : ∀ a ∈ items, part (value a) (bytes a)) (filled : items ≠ []) :
    list (items.map value) ([0x2C].intercalate (items.map bytes)) := by
  have behind {xs : List β} {front : Bytes} (before : list xs front) {rest : List α}
      (each : ∀ a ∈ rest, part (value a) (bytes a)) :
      list (xs ++ rest.map value) (front ++ (rest.map bytes).flatMap (0x2C :: ·)) := by
    induction rest generalizing xs front with
    | nil => simpa using before
    | cons a rest ih =>
        obtain ⟨first, others⟩ := List.forall_mem_cons.1 each
        have next := ih (more before first) others
        simpa using next
  obtain ⟨a, rest, rfl⟩ := List.exists_cons_of_ne_nil filled
  obtain ⟨first, others⟩ := List.forall_mem_cons.1 each
  rw [List.map_cons, List.map_cons, intercalate_singleton_cons]
  exact behind (one first) others

theorem enclose_of_filled (l : Layout) (depth : Nat) (opening closing : UInt8) (bytes : α → Bytes)
    (filled : items ≠ []) : enclose l depth opening closing (items.map bytes) =
      opening :: ([0x2C].intercalate (items.map fun a => l.newline (depth + 1) ++ bytes a) ++
        l.newline depth ++ [closing]) := by
  have some : (items.map bytes).isEmpty = false := by simpa using filled
  simp [enclose, some, Function.comp_def]

theorem Layout.Blank.padded (blank : l.Blank) (depth : Nat) {t : Tree} {b : Bytes}
    (value : t.Spelled b) : t.Padded (l.newline depth ++ b) := by
  have text := Tree.Padded.mk (blanks_of_spaces (blank.newline depth)) value blanks_nil
  rwa [List.append_nil] at text

theorem spelled_array (blank : l.Blank) (depth : Nat)
    (each : ∀ a ∈ items, (trees a).Spelled (bytes a)) :
    Tree.Spelled (.array (items.map trees)) (enclose l depth 0x5B 0x5D (items.map bytes)) := by
  by_cases filled : items = []
  · subst filled
    exact .emptyArray blanks_nil
  · have between := commas Items Tree.Padded .one .more
      (fun a mem => blank.padded (depth + 1) (each a mem)) filled
    rw [enclose_of_filled l depth _ _ bytes filled]
    exact .array (between.blanks (blanks_of_spaces (blank.newline depth)))

theorem member_of_spelled (blank : l.Blank) (depth : Nat) (key : String) {t : Tree} {b : Bytes}
    (value : t.Spelled b) :
    Member (escaped key, t) (l.newline depth ++ (writeText key ++ l.colon ++ b)) := by
  obtain ⟨front, back, colon, fronts, backs⟩ := blank.colon
  have text := Tree.Padded.mk (blanks_of_spaces backs) value blanks_nil
  have member := Member.mk (blanks_of_spaces (blank.newline depth)) (closed_escaped key)
    (blanks_of_spaces fronts) text
  simpa [colon, writeText, escaped] using member

theorem spelled_object (blank : l.Blank) (depth : Nat) (name : α → String)
    (each : ∀ a ∈ items, (trees a).Spelled (bytes a)) :
    Tree.Spelled (.object (items.map fun a => (escaped (name a), trees a)))
      (enclose l depth 0x7B 0x7D
        (items.map fun a => writeText (name a) ++ l.colon ++ bytes a)) := by
  by_cases filled : items = []
  · subst filled
    exact .emptyObject blanks_nil
  · have between := commas Members Member .one .more
      (fun a mem => member_of_spelled blank (depth + 1) (name a) (each a mem)) filled
    rw [enclose_of_filled l depth _ _ _ filled]
    exact .object (between.blanks (blanks_of_spaces (blank.newline depth)))

end Containers

mutual

def treeOf : Doc → Tree
  | .null => .null
  | .bool b => .bool b
  | .int i => .number (.ofInt i)
  | .double _ => .null
  | .text s => .string (escaped s)
  | .bytes b => .array (b.map fun x => .number (.ofInt x.toNat))
  | .list items => .array (treesOf items)
  | .map entries => .object (membersOf entries)

def treesOf : List Doc → List Tree
  | [] => []
  | d :: rest => treeOf d :: treesOf rest

def membersOf : List (String × Doc) → List (Bytes × Tree)
  | [] => []
  | (k, d) :: rest => (escaped k, treeOf d) :: membersOf rest

end

theorem treesOf_eq_map (items : List Doc) : treesOf items = items.map treeOf := by
  induction items with
  | nil => rfl
  | cons d rest ih => rw [treesOf, ih, List.map_cons]

theorem membersOf_eq_map (entries : List (String × Doc)) :
    membersOf entries = entries.map fun e => (escaped e.1, treeOf e.2) := by
  induction entries with
  | nil => rfl
  | cons e rest ih => rw [membersOf, ih, List.map_cons]

theorem itemsAt_eq_map (l : Layout) (depth : Nat) (items : List Doc) :
    itemsAt l depth items = items.map (writeAt l depth) := by
  induction items with
  | nil => rfl
  | cons d rest ih => rw [itemsAt, ih, List.map_cons]

theorem entriesAt_eq_map (l : Layout) (depth : Nat) (entries : List (String × Doc)) :
    entriesAt l depth entries =
      entries.map fun e => writeText e.1 ++ l.colon ++ writeAt l depth e.2 := by
  induction entries with
  | nil => rfl
  | cons e rest ih => rw [entriesAt, ih, List.map_cons]

section Writing

variable {l : Layout}

mutual

/-- A document is written as the tree that it has, in every layout and at every depth. -/
theorem spelled_writeAt (blank : l.Blank) :
    ∀ (d : Doc) (depth : Nat), (treeOf d).Spelled (writeAt l depth d)
  | .null, _ | .double _, _ => .null
  | .bool true, _ => .true
  | .bool false, _ => .false
  | .int i, _ => spelled_writeInt i
  | .text s, _ => spelled_writeText s
  | .bytes b, depth => by
    have digits (n : Nat) : writeNat n = writeInt n := by
      have positive : ¬ (n : Int) < 0 := by omega
      simp [writeInt, positive]
    simp only [writeAt, digits]
    exact spelled_array blank depth fun x _ => spelled_writeInt x.toNat
  | .list items, depth => by
    rw [writeAt, itemsAt_eq_map, treeOf, treesOf_eq_map]
    exact spelled_array blank depth (spelled_items blank items (depth + 1))
  | .map entries, depth => by
    rw [writeAt, entriesAt_eq_map, treeOf, membersOf_eq_map]
    exact spelled_object blank depth Prod.fst (spelled_entries blank entries (depth + 1))

theorem spelled_items (blank : l.Blank) :
    ∀ (items : List Doc) (depth : Nat), ∀ d ∈ items, (treeOf d).Spelled (writeAt l depth d)
  | [], _ => List.forall_mem_nil _
  | d :: items, depth =>
    List.forall_mem_cons.2 ⟨spelled_writeAt blank d depth, spelled_items blank items depth⟩

theorem spelled_entries (blank : l.Blank) :
    ∀ (entries : List (String × Doc)) (depth : Nat),
      ∀ e ∈ entries, (treeOf e.2).Spelled (writeAt l depth e.2)
  | [], _ => List.forall_mem_nil _
  | (_, d) :: entries, depth =>
    List.forall_mem_cons.2 ⟨spelled_writeAt blank d depth, spelled_entries blank entries depth⟩

end

theorem parse_write (blank : l.Blank) (d : Doc) : Tree.parse (write l d) = some (treeOf d) :=
  (spelled_writeAt blank d 0).written.parse

end Writing

theorem renders : format.Renders treeOf where
  isNull_null := rfl
  isNull_other {d} filled single := by
    cases d with
    | null => exact absurd rfl filled
    | double bits => exact absurd rfl (single bits)
    | _ => rfl
  bool? _ := rfl
  nat? {n} word := by simp [format, treeOf, Tree.nat?, Numeral.value?_ofInt word]
  text? s := stringText?_escaped s
  bytes? b := by
    show (b.map fun x => Tree.number (.ofInt x.toNat)).mapM Tree.byte? = some b
    have each : ∀ x ∈ b, Tree.byte? (.number (.ofInt x.toNat)) = some x := fun x _ => by
      have small := x.toNat_lt
      simp [Tree.byte?, Tree.nat?, Numeral.value?_ofInt (n := x.toNat) (by omega), small]
    exact mapM_map_of_inverse each
  items? items := congrArg some (treesOf_eq_map items)
  entries? entries := by
    show Tree.entries? (.object (membersOf entries)) = _
    rw [membersOf_eq_map, Tree.entries?]
    refine mapM_map_eq_some fun e _ => ?_
    rw [stringText?_escaped, Option.map_some]
  fields? {names entries} known := by
    show Tree.fields? names (.object (membersOf entries)) = _
    have each : ∀ e ∈ entries, Tree.fieldMember? names (escaped e.1, treeOf e.2) =
        some (some (names.idxOf e.1, treeOf e.2)) := by
      intro e mem
      simp only [Tree.fieldMember?, stringText?_escaped, findIdx?_of_mem (known e mem)]
    rw [membersOf_eq_map, Tree.fields?, mapM_map_eq_some each]
    simp [placed]

end ContractHost.Json
