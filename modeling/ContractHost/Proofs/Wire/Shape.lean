import ContractHost.Proofs.Traversal
import ContractHost.Wire.Shape
import Mathlib.Algebra.Group.Int.Defs
import Mathlib.Algebra.Group.Nat.Defs
import Mathlib.Data.List.Nodup

/-!
Documents of a shape, and the reading of their trees.

A shape admits the documents that values of its types are written as. What a
format has to do for such documents is gathered in `Format.Renders`: it takes the
tree of every single document for that document. Reading the tree of a document
by a shape that admits it then gives the document back (`Shape.read_tree`), in
whatever format, so the rest of a round trip is about one format alone.
-/

namespace ContractHost

namespace Doc

mutual

def parts : Doc → List Doc
  | .list items => .list items :: itemsParts items
  | .map entries => .map entries :: entriesParts entries
  | d => [d]

def itemsParts : List Doc → List Doc
  | [] => []
  | d :: rest => d.parts ++ itemsParts rest

def entriesParts : List (String × Doc) → List Doc
  | [] => []
  | (_, d) :: rest => d.parts ++ entriesParts rest

end

mutual

/-- How deep lists and maps are nested in a document. -/
def depth : Doc → Nat
  | .list items => itemsDepth items + 1
  | .map entries => entriesDepth entries + 1
  | _ => 0

def itemsDepth : List Doc → Nat
  | [] => 0
  | d :: rest => max d.depth (itemsDepth rest)

def entriesDepth : List (String × Doc) → Nat
  | [] => 0
  | (_, d) :: rest => max d.depth (entriesDepth rest)

end

/-- The length of a document, and of the keys of a map, is below 2^32. -/
def ShortHere : Doc → Prop
  | .text s => (Bytes.ofText s).length < 2 ^ 32
  | .bytes b => b.length < 2 ^ 32
  | .list items => items.length < 2 ^ 32
  | .map entries => entries.length < 2 ^ 32 ∧ ∀ e ∈ entries, (Bytes.ofText e.1).length < 2 ^ 32
  | _ => True

def Short (d : Doc) : Prop := ∀ e ∈ d.parts, e.ShortHere

/-- If the document is an integer, it has 64 bits, with or without sign. -/
def WordHere : Doc → Prop
  | .int i => -2 ^ 63 ≤ i ∧ i < 2 ^ 64
  | _ => True

def Words (d : Doc) : Prop := ∀ e ∈ d.parts, e.WordHere

theorem mem_itemsParts {e : Doc} {items : List Doc} :
    e ∈ itemsParts items ↔ ∃ d ∈ items, e ∈ d.parts := by
  induction items with
  | nil => simp [itemsParts]
  | cons d rest ih => simp [itemsParts, ih]

theorem mem_entriesParts {e : Doc} {entries : List (String × Doc)} :
    e ∈ entriesParts entries ↔ ∃ d ∈ entries, e ∈ d.2.parts := by
  induction entries with
  | nil => simp [entriesParts]
  | cons d rest ih => simp [entriesParts, ih]

theorem forall_parts_list {p : Doc → Prop} {items : List Doc} :
    (∀ e ∈ (list items).parts, p e) ↔ p (.list items) ∧ ∀ d ∈ items, ∀ e ∈ d.parts, p e := by
  rw [parts, List.forall_mem_cons]
  refine and_congr_right fun _ => ⟨fun within d mem e part => ?_, fun each e mem => ?_⟩
  · exact within e (mem_itemsParts.2 ⟨d, mem, part⟩)
  · obtain ⟨d, here, part⟩ := mem_itemsParts.1 mem
    exact each d here e part

theorem forall_parts_map {p : Doc → Prop} {entries : List (String × Doc)} :
    (∀ e ∈ (map entries).parts, p e) ↔
      p (.map entries) ∧ ∀ d ∈ entries, ∀ e ∈ d.2.parts, p e := by
  rw [parts, List.forall_mem_cons]
  refine and_congr_right fun _ => ⟨fun within d mem e part => ?_, fun each e mem => ?_⟩
  · exact within e (mem_entriesParts.2 ⟨d, mem, part⟩)
  · obtain ⟨d, here, part⟩ := mem_entriesParts.1 mem
    exact each d here e part

@[simp] theorem short_null : Doc.null.Short := by simp [Short, parts, ShortHere]

@[simp] theorem short_bytes {b : Bytes} : (Doc.bytes b).Short ↔ b.length < 2 ^ 32 := by
  simp [Short, parts, ShortHere]

theorem short_map {entries : List (String × Doc)} :
    (Doc.map entries).Short ↔ entries.length < 2 ^ 32 ∧
      ∀ e ∈ entries, (Bytes.ofText e.1).length < 2 ^ 32 ∧ e.2.Short := by
  rw [Short, forall_parts_map]
  constructor
  · rintro ⟨⟨few, keys⟩, within⟩
    exact ⟨few, fun e mem => ⟨keys e mem, within e mem⟩⟩
  · rintro ⟨few, each⟩
    exact ⟨⟨few, fun e mem => (each e mem).1⟩, fun e mem => (each e mem).2⟩

theorem itemsDepth_le_iff {items : List Doc} {n : Nat} :
    itemsDepth items ≤ n ↔ ∀ d ∈ items, d.depth ≤ n := by
  induction items with
  | nil => simp [itemsDepth]
  | cons d rest ih => rw [itemsDepth, Nat.max_le, List.forall_mem_cons, ih]

theorem entriesDepth_le_iff {entries : List (String × Doc)} {n : Nat} :
    entriesDepth entries ≤ n ↔ ∀ e ∈ entries, e.2.depth ≤ n := by
  induction entries with
  | nil => simp [entriesDepth]
  | cons e rest ih => rw [entriesDepth, Nat.max_le, List.forall_mem_cons, ih]

end Doc

mutual

/-- The documents that a shape admits. A record names all its fields, in order. -/
def Shape.Admits : Shape → Doc → Prop
  | .bool, .bool _ => True
  | .nat bound, .int i => 0 ≤ i ∧ i ≤ bound ∧ i < 2 ^ 64
  | .text, .text _ => True
  | .bytes, .bytes _ => True
  | .option _, .null => True
  | .option s, d => s.Admits d
  | .list s, .list items => ∀ d ∈ items, s.Admits d
  | .dictionary s, .map entries => ∀ e ∈ entries, s.Admits e.2
  | .record fields, .map entries => fields.names.Nodup ∧ fields.Admits entries
  | _, _ => False

def Fields.Admits : Fields → List (String × Doc) → Prop
  | .nil, [] => True
  | .cons name s _ rest, (k, d) :: entries => k = name ∧ s.Admits d ∧ rest.Admits entries
  | _, _ => False

end

mutual

def Shape.depth : Shape → Nat
  | .option s => s.depth
  | .list s => s.depth + 1
  | .dictionary s => s.depth + 1
  | .record fields => fields.depth + 1
  | _ => 0

def Fields.depth : Fields → Nat
  | .nil => 0
  | .cons _ s _ rest => max s.depth rest.depth

end

namespace Shape

theorem not_admits_double (s : Shape) (bits : UInt64) : ¬ s.Admits (.double bits) := by
  intro admits
  cases s with
  | option s => exact not_admits_double s bits admits
  | _ => exact admits

mutual

theorem depth_le_of_admits : ∀ {s : Shape} {d : Doc}, s.Admits d → d.depth ≤ s.depth
  | .bool, .bool _, _ | .nat _, .int _, _ | .text, .text _, _ | .bytes, .bytes _, _ =>
    Nat.zero_le _
  | .option s, d, admits => by
    cases d with
    | null => exact Nat.zero_le _
    | _ => exact depth_le_of_admits (s := s) admits
  | .list s, .list items, admits => by
    have each : ∀ d ∈ items, d.depth ≤ s.depth := fun d mem => depth_le_of_admits (admits d mem)
    exact Nat.succ_le_succ (Doc.itemsDepth_le_iff.2 each)
  | .dictionary s, .map entries, admits => by
    have each : ∀ e ∈ entries, e.2.depth ≤ s.depth := fun e mem => depth_le_of_admits (admits e mem)
    exact Nat.succ_le_succ (Doc.entriesDepth_le_iff.2 each)
  | .record fields, .map entries, admits =>
    Nat.succ_le_succ (depth_le_of_fieldsAdmit admits.2)

theorem depth_le_of_fieldsAdmit : ∀ {fields : Fields} {entries : List (String × Doc)},
    fields.Admits entries → Doc.entriesDepth entries ≤ fields.depth
  | .nil, [], _ => Nat.le_refl 0
  | .cons _ s _ rest, (_, d) :: entries, admits => by
    have first : d.depth ≤ s.depth := depth_le_of_admits admits.2.1
    have others : Doc.entriesDepth entries ≤ rest.depth := depth_le_of_fieldsAdmit admits.2.2
    simp only [Doc.entriesDepth, Fields.depth]
    omega

end

mutual

/-- The integers of an admitted document have 64 bits, since the bounds of its shape have. -/
theorem words_of_admits : ∀ {s : Shape} {d : Doc}, s.Admits d → d.Words
  | .bool, .bool _, _ | .text, .text _, _ | .bytes, .bytes _, _ => by
    simp [Doc.Words, Doc.parts, Doc.WordHere]
  | .nat _, .int i, ⟨least, _, word⟩ => by
    simp only [Doc.Words, Doc.parts, List.forall_mem_singleton, Doc.WordHere]
    omega
  | .option s, d, admits => by
    cases d with
    | null => simp [Doc.Words, Doc.parts, Doc.WordHere]
    | _ => exact words_of_admits (s := s) admits
  | .list s, .list items, admits => by
    have each : ∀ d ∈ items, d.Words := fun d mem => words_of_admits (admits d mem)
    exact Doc.forall_parts_list.2 ⟨trivial, each⟩
  | .dictionary s, .map entries, admits => by
    have each : ∀ e ∈ entries, e.2.Words := fun e mem => words_of_admits (admits e mem)
    exact Doc.forall_parts_map.2 ⟨trivial, each⟩
  | .record fields, .map entries, admits =>
    List.forall_mem_cons.2 ⟨trivial, words_of_fieldsAdmit admits.2⟩

theorem words_of_fieldsAdmit : ∀ {fields : Fields} {entries : List (String × Doc)},
    fields.Admits entries → ∀ e ∈ Doc.entriesParts entries, e.WordHere
  | .nil, [], _ => List.forall_mem_nil _
  | .cons _ _ _ _, (_, _) :: _, admits =>
    List.forall_mem_append.2 ⟨words_of_admits admits.2.1, words_of_fieldsAdmit admits.2.2⟩

end

end Shape

/-- What is found in a record that has the given fields: the values of its entries, each with the
place of its field. -/
def placed {T : Type} (names : List String) (tree : Doc → T) (entries : List (String × Doc)) :
    List (Nat × T) :=
  entries.map fun e => (names.idxOf e.1, tree e.2)

/-- A format takes the tree that it has for a document for that document. -/
structure Format.Renders {T : Type} (F : Format T) (tree : Doc → T) : Prop where
  isNull_null : F.isNull (tree .null) = true
  /-- A document that is neither null nor a double is not taken for null. -/
  isNull_other {d : Doc} : d ≠ .null → (∀ bits, d ≠ .double bits) → F.isNull (tree d) = false
  bool? (b : Bool) : F.bool? (tree (.bool b)) = some b
  nat? {n : Nat} : n < 2 ^ 64 → F.nat? (tree (.int n)) = some n
  text? (s : String) : F.text? (tree (.text s)) = some s
  bytes? (b : Bytes) : F.bytes? (tree (.bytes b)) = some b
  items? (items : List Doc) : F.items? (tree (.list items)) = some (items.map tree)
  entries? (entries : List (String × Doc)) :
    F.entries? (tree (.map entries)) = some (entries.map fun e => (e.1, tree e.2))
  fields? {names : List String} {entries : List (String × Doc)} :
    (∀ e ∈ entries, e.1 ∈ names) →
      F.fields? names (tree (.map entries)) = some (placed names tree entries)

theorem findIdx?_of_mem {names : List String} {k : String} (mem : k ∈ names) :
    names.findIdx? (fun s => decide (s = k)) = some (names.idxOf k) :=
  List.findIdx?_eq_some_of_exists (p := fun s => decide (s = k)) ⟨k, mem, decide_eq_true rfl⟩

theorem Fields.names_of_admits : ∀ {fields : Fields} {entries : List (String × Doc)},
    fields.Admits entries → fields.names = entries.map Prod.fst
  | .nil, [], _ => rfl
  | .cons .., (_, _) :: _, ⟨rfl, _, others⟩ => congrArg _ (names_of_admits others)

theorem lookup_placed {T : Type} (tree : Doc → T) {done rest : List (String × Doc)}
    {e : String × Doc} (nodup : ((done ++ e :: rest).map Prod.fst).Nodup) :
    (placed ((done ++ e :: rest).map Prod.fst) tree (done ++ e :: rest)).lookup done.length =
      some (tree e.2) := by
  simp only [placed, List.map_append, List.map_cons] at nodup ⊢
  have fresh : e.1 ∉ done.map Prod.fst := by
    intro mem
    exact List.disjoint_of_nodup_append nodup mem List.mem_cons_self
  have place : (done.map Prod.fst ++ e.1 :: rest.map Prod.fst).idxOf e.1 = done.length := by
    rw [List.idxOf_append_of_notMem fresh]
    simp
  rw [List.lookup_eq_some_iff]
  refine ⟨_, _, by rw [place], fun p mem => ?_⟩
  -- what stands before the entry has an earlier place
  obtain ⟨x, hx, rfl⟩ := List.mem_map.1 mem
  have earlier : x.1 ∈ done.map Prod.fst := List.mem_map_of_mem hx
  have below := List.idxOf_lt_length_of_mem earlier
  rw [List.length_map] at below
  rw [List.idxOf_append_of_mem earlier]
  simp only [bne_iff_ne, ne_eq]
  omega

theorem nodup_placed {T : Type} (tree : Doc → T) {entries : List (String × Doc)}
    (nodup : (entries.map Prod.fst).Nodup) :
    ((placed (entries.map Prod.fst) tree entries).map Prod.fst).Nodup := by
  have places : (placed (entries.map Prod.fst) tree entries).map Prod.fst =
      (entries.map Prod.fst).map fun k => (entries.map Prod.fst).idxOf k := by
    simp [placed, Function.comp_def]
  rw [places]
  exact List.Nodup.map_on (fun a ha b _ eq => (List.idxOf_inj ha).1 eq) nodup

section Reading

variable {T : Type} {F : Format T} {tree : Doc → T}

mutual

/-- A document is read from its tree by every shape that admits it. -/
theorem Shape.read_tree (law : F.Renders tree) :
    ∀ {s : Shape} {d : Doc}, s.Admits d → s.read F (tree d) = some d
  | .bool, .bool b, _ => by simp [Shape.read, law.bool?]
  | .nat bound, .int i, ⟨least, within, word⟩ => by
    obtain ⟨n, rfl⟩ := Int.eq_ofNat_of_zero_le least
    have small : n ≤ bound := Int.ofNat_le.1 within
    simp [Shape.read, law.nat? (n := n) (by omega), small]
  | .text, .text s, _ => by simp [Shape.read, law.text?]
  | .bytes, .bytes b, _ => by simp [Shape.read, law.bytes?]
  | .option s, d, admits => by
    by_cases absent : d = .null
    · subst absent
      simp [Shape.read, law.isNull_null]
    · have admitted : s.Admits d := by
        cases d with
        | null => exact absurd rfl absent
        | _ => exact admits
      have other : F.isNull (tree d) = false := by
        refine law.isNull_other absent ?_
        rintro bits rfl
        exact s.not_admits_double bits admitted
      simp only [Shape.read, other]
      exact Shape.read_tree law admitted
  | .list s, .list items, admits => by
    have each : ∀ d ∈ items, s.read F (tree d) = some d :=
      fun d mem => Shape.read_tree law (admits d mem)
    simp only [Shape.read, law.items?]
    rw [mapM_map_of_inverse each, Option.map_some]
  | .dictionary s, .map entries, admits => by
    have each : ∀ e ∈ entries, ((s.read F (tree e.2)).map (e.1, ·)) = some e := fun e mem => by
      rw [Shape.read_tree law (admits e mem)]
      rfl
    simp only [Shape.read, law.entries?]
    rw [mapM_map_of_inverse each, Option.map_some]
  | .record fields, .map entries, ⟨nodup, admits⟩ => by
    have names := fields.names_of_admits admits
    rw [names] at nodup
    have known : ∀ e ∈ entries, e.1 ∈ entries.map Prod.fst := fun e mem => List.mem_map_of_mem mem
    have found := @Fields.read_placed law fields [] entries nodup admits
    simp only [List.nil_append, List.length_nil] at found
    simp only [Shape.read, names, law.fields? known, nodup_placed tree nodup, if_true, found,
      Option.map_some]

/-- The fields of a record from some place on are read from what was found for all of them. -/
theorem Fields.read_placed (law : F.Renders tree) :
    ∀ {fields : Fields} {done entries : List (String × Doc)},
      ((done ++ entries).map Prod.fst).Nodup → fields.Admits entries →
        fields.read F (placed ((done ++ entries).map Prod.fst) tree (done ++ entries))
          done.length = some entries
  | .nil, _, [], _, _ => rfl
  | .cons name s default rest, done, (_, d) :: entries, nodup, ⟨rfl, admits, others⟩ => by
    have here := lookup_placed tree nodup
    have more : done ++ (name, d) :: entries = (done ++ [(name, d)]) ++ entries := by simp
    rw [more] at nodup here ⊢
    have after := Fields.read_placed law nodup others
    rw [List.length_append] at after
    simp only [Fields.read, here, Shape.read_tree law admits]
    rw [show done.length + 1 = done.length + [(name, d)].length from rfl, after]

end

end Reading

end ContractHost
