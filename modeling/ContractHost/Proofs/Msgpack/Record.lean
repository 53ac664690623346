import ContractHost.Proofs.Msgpack.Grammar
import ContractHost.Proofs.Wire.Shape
import Mathlib.Data.List.Count

/-!
Records as maps that name their fields.

A document has one tree as which it is written and many for which it is taken: a map may name the
fields of a record in any order, leave out a field that holds its default, and have entries under
other names, whatever these hold. All of them are read as the document (`Shape.read_of_takes`). A
map that names a field of a record twice is read as nothing (`Shape.read_of_repeats`).

Both go by what a map has under a name, for the reader finds a field where it finds its name.
-/

namespace ContractHost

namespace Msgpack.Tree

/-- A number in either of its forms. -/
def IsNat (n : Nat) (t : Tree) : Prop := t = .uint n ∨ t = .sint n

def IsText (s : String) (t : Tree) : Prop := t = .str (Bytes.ofText s) ∨ t = .bin (Bytes.ofText s)

def IsBytes (b : Bytes) (t : Tree) : Prop :=
  t = .bin b ∨ t = .str b ∨ ∃ items, t = .array items ∧ List.Forall₂ (IsNat ·.toNat) b items

def isName (name : String) : Tree → Bool
  | .str b => b = Bytes.ofText name
  | _ => false

/-- The values that stand in a map under a name. -/
def under (name : String) (given : List (Tree × Tree)) : List Tree :=
  (given.filter fun e => e.1.isName name).map Prod.snd

def Named (given : List (Tree × Tree)) : Prop := ∀ e ∈ given, ∃ k, e.1 = .str k

/-- Entries under strings that are none of the given names. -/
def Strange (names : List String) (others : List (Tree × Tree)) : Prop :=
  ∀ e ∈ others, ∃ k, e.1 = .str k ∧ ∀ name ∈ names, k ≠ Bytes.ofText name

end Msgpack.Tree

open Msgpack (Tree)

mutual

/-- The trees for which a document of a shape is taken. For a record these are the maps that list
its fields by name, in any order, and have any entries under strings that are none of the names. -/
def Shape.Takes : Shape → Doc → Tree → Prop
  | .bool, .bool b, t => t = .bool b
  | .nat _, .int i, t => ∃ n : Nat, i = n ∧ t.IsNat n
  | .text, .text s, t => t.IsText s
  | .bytes, .bytes b, t => t.IsBytes b
  | .option s, d, t => (d = .null ∧ t = .nil) ∨ (d ≠ .null ∧ s.Takes d t)
  | .list s, .list items, t => ∃ ts, t = .array ts ∧ List.Forall₂ s.Takes items ts
  | .dictionary s, .map entries, t => ∃ given, t = .map given ∧
    List.Forall₂ (fun d e => e.1.IsText d.1 ∧ s.Takes d.2 e.2) entries given
  | .record fields, .map entries, t => ∃ given listed others, t = .map given ∧
    given.Perm (listed ++ others) ∧ fields.Lists entries listed ∧ Tree.Strange fields.names others
  | _, _, _ => False

/-- Entries that list the fields of a record one after the other. A field that holds its default may
be left out. -/
def Fields.Lists : Fields → List (String × Doc) → List (Tree × Tree) → Prop
  | .nil, [], listed => listed = []
  | .cons name s default rest, (k, d) :: entries, listed => k = name ∧
    ((default = some d ∧ rest.Lists entries listed) ∨
      ∃ t more, listed = (.str (Bytes.ofText name), t) :: more ∧ s.Takes d t ∧
        rest.Lists entries more)
  | _, _, _ => False

end

mutual

/-- The trees in which a map that stands for a record names a field of it twice. -/
def Shape.Repeats : Shape → Tree → Prop
  | .option s, t => s.Repeats t
  | .list s, t => ∃ ts, t = .array ts ∧ ∃ u ∈ ts, s.Repeats u
  | .dictionary s, t => ∃ given, t = .map given ∧ ∃ e ∈ given, s.Repeats e.2
  | .record fields, t => ∃ given, t = .map given ∧
    ((∃ name ∈ fields.names, 2 ≤ (Tree.under name given).length) ∨ fields.Repeats given)
  | _, _ => False

def Fields.Repeats : Fields → List (Tree × Tree) → Prop
  | .nil, _ => False
  | .cons name s _ rest, given => (∃ t ∈ Tree.under name given, s.Repeats t) ∨ rest.Repeats given

end

mutual

def Shape.distinct : Shape → Bool
  | .option s => s.distinct
  | .list s => s.distinct
  | .dictionary s => s.distinct
  | .record fields => decide fields.names.Nodup && fields.distinct
  | _ => true

def Fields.distinct : Fields → Bool
  | .nil => true
  | .cons _ s _ rest => s.distinct && rest.distinct

end

section Found

variable {T : Type}

/-- What was found for the field at a place. -/
def valuesAt (i : Nat) (found : List (Nat × T)) : List T :=
  (found.filter fun p => p.1 = i).map Prod.snd

theorem length_valuesAt (i : Nat) (found : List (Nat × T)) :
    (valuesAt i found).length = (found.map Prod.fst).count i := by
  induction found with
  | nil => rfl
  | cons p found ih =>
      by_cases here : p.1 = i <;> simpa [valuesAt, here] using ih

theorem lookup_eq_head? (i : Nat) (found : List (Nat × T)) :
    found.lookup i = (valuesAt i found).head? := by
  induction found with
  | nil => rfl
  | cons p found ih =>
      obtain ⟨j, t⟩ := p
      rw [Msgpack.lookup_cons_ite]
      split
      · next here => simp [valuesAt, here]
      · next other => simpa [valuesAt, Ne.symm other] using ih

theorem nodup_iff_valuesAt {found : List (Nat × T)} :
    (found.map Prod.fst).Nodup ↔ ∀ i, (valuesAt i found).length ≤ 1 := by
  simp only [List.nodup_iff_count_le_one, length_valuesAt]

theorem lookup_of_mem {found : List (Nat × T)} (nodup : (found.map Prod.fst).Nodup) {i : Nat}
    {t : T} (mem : t ∈ valuesAt i found) : found.lookup i = some t := by
  obtain ⟨u, alone⟩ := List.length_eq_one_iff.1
    (Nat.le_antisymm (nodup_iff_valuesAt.1 nodup i) (List.length_pos_of_mem mem))
  rw [alone, List.mem_singleton] at mem
  rw [lookup_eq_head?, alone, mem, List.head?_cons]

end Found

namespace Msgpack.Tree

variable {names : List String} {given : List (Tree × Tree)} {found : List (Nat × Tree)}

theorem fieldKey?_eq_some_iff (nodup : names.Nodup) {k : Bytes} {i : Nat} :
    fieldKey? names (.str k) = some (some i) ↔
      ∃ name, names[i]? = some name ∧ k = Bytes.ofText name := by
  rw [fieldKey?, Option.some_inj, List.findIdx?_eq_some_iff_getElem]
  constructor
  · rintro ⟨below, same, -⟩
    exact ⟨names[i], List.getElem?_eq_getElem below, (of_decide_eq_true same).symm⟩
  · rintro ⟨name, there, rfl⟩
    obtain ⟨below, rfl⟩ := List.getElem?_eq_some_iff.1 there
    refine ⟨below, decide_eq_true rfl, fun j earlier same => ?_⟩
    -- an earlier place with the same name would be the same place
    have equal : names[j] = names[i] := Bytes.ofText_injective (of_decide_eq_true same)
    exact absurd ((nodup.getElem_inj_iff).1 equal) (Nat.ne_of_lt earlier)

theorem valuesAt_of_fields? (read : fields? names (.map given) = some found) (i : Nat) :
    valuesAt i found =
      (given.filter fun e => fieldKey? names e.1 = some (some i)).map Prod.snd := by
  obtain ⟨pairs, all, rfl⟩ := Option.map_eq_some_iff.1 read
  clear read
  induction mapM_eq_some_iff.1 all with
  | nil => rfl
  | @cons e pair given pairs first others ih =>
      have rest := ih (mapM_eq_some_iff.2 others)
      rw [fieldPair?] at first
      split at first
      · cases first
      · next other =>
          cases first
          simpa [valuesAt, other] using rest
      · next j key =>
          cases first
          by_cases here : j = i <;> simpa [valuesAt, key, here] using rest

theorem fields?_of_named (named : Named given) (names : List String) :
    ∃ found, fields? names (.map given) = some found := by
  have each : ∀ e ∈ given, fieldPair? names e = some ((fieldPair? names e).getD none) := by
    intro e mem
    obtain ⟨k, key⟩ := named e mem
    rw [fieldPair?, key, fieldKey?]
    cases names.findIdx? _ <;> rfl
  have all := mapM_map_eq_some (g := id) each
  rw [List.map_id] at all
  rw [fields?, all]
  exact ⟨_, rfl⟩

section Names

variable {name : String} {i : Nat}

theorem isName_iff {t : Tree} : t.isName name = true ↔ t = .str (Bytes.ofText name) := by
  cases t <;> simp [isName]

theorem under_cons_self (name : String) (t : Tree) (given : List (Tree × Tree)) :
    under name ((.str (Bytes.ofText name), t) :: given) = t :: under name given := by
  simp [under, isName]

theorem under_cons_of_ne {k : Tree} (other : k ≠ .str (Bytes.ofText name)) (t : Tree)
    (given : List (Tree × Tree)) : under name ((k, t) :: given) = under name given := by
  have not : ¬ k.isName name = true := fun same => other (isName_iff.1 same)
  simp [under, not]

theorem under_eq_nil (others : ∀ e ∈ given, e.1 ≠ .str (Bytes.ofText name)) :
    under name given = [] := by
  rw [under, List.map_eq_nil_iff, List.filter_eq_nil_iff]
  exact fun e mem same => others e mem (isName_iff.1 same)

/-- What stands once under a name is found wherever it stands, and whatever stands beside it. -/
theorem under_of_perm {listed others : List (Tree × Tree)} (perm : given.Perm (listed ++ others))
    (beside : under name others = []) (once : (under name listed).length ≤ 1) :
    under name given = under name listed := by
  have same : (under name given).Perm (under name listed) := by
    have split : under name (listed ++ others) = under name listed := by
      rw [under, List.filter_append, List.map_append, ← under, ← under, beside, List.append_nil]
    exact split ▸ (perm.filter _).map _
  generalize under name listed = values at once same
  match values, once with
  | [], _ => exact same.eq_nil
  | [t], _ => exact List.perm_singleton.1 same

theorem under_sublist (nodup : names.Nodup) (there : names[i]? = some name)
    (read : fields? names (.map given) = some found) :
    (under name given).Sublist (valuesAt i found) := by
  rw [valuesAt_of_fields? read]
  refine (List.monotone_filter_right given fun e named => ?_).map _
  rw [isName_iff.1 named]
  exact decide_eq_true ((fieldKey?_eq_some_iff nodup).2 ⟨name, there, rfl⟩)

/-- If all keys are strings, nothing else is found for it. -/
theorem valuesAt_eq_under (nodup : names.Nodup) (there : names[i]? = some name)
    (named : Named given) (read : fields? names (.map given) = some found) :
    valuesAt i found = under name given := by
  rw [valuesAt_of_fields? read, under]
  refine congrArg _ (List.filter_congr fun e mem => ?_)
  obtain ⟨k, key⟩ := named e mem
  rw [Bool.eq_iff_iff, decide_eq_true_iff, isName_iff, key, fieldKey?_eq_some_iff nodup]
  constructor
  · rintro ⟨other, there', rfl⟩
    rw [there] at there'
    rw [Option.some.inj there']
  · intro same
    exact ⟨name, there, Tree.str.inj same⟩

theorem valuesAt_eq_nil (nodup : names.Nodup) (past : names[i]? = none) (named : Named given)
    (read : fields? names (.map given) = some found) : valuesAt i found = [] := by
  rw [valuesAt_of_fields? read, List.map_eq_nil_iff, List.filter_eq_nil_iff]
  intro e mem stands
  obtain ⟨k, key⟩ := named e mem
  rw [key, decide_eq_true_iff, fieldKey?_eq_some_iff nodup] at stands
  obtain ⟨name, there, -⟩ := stands
  rw [past] at there
  cases there

end Names

section Forms

theorem nat?_of_isNat {n : Nat} {t : Tree} (form : t.IsNat n) : t.nat? = some n := by
  rcases form with rfl | rfl
  · rfl
  · simp [nat?]

theorem text?_of_isText {s : String} {t : Tree} (form : t.IsText s) : t.text? = some s := by
  rcases form with rfl | rfl
  · exact Bytes.text?_ofText s
  · exact Bytes.text?_ofText s

theorem byte?_of_isNat {x : UInt8} {t : Tree} (form : t.IsNat x.toNat) : t.byte? = some x := by
  rw [byte?, nat?_of_isNat form]
  simp [x.toNat_lt]

theorem bytes?_of_isBytes {b : Bytes} {t : Tree} (form : t.IsBytes b) : t.bytes? = some b := by
  rcases form with rfl | rfl | ⟨items, rfl, each⟩
  · rfl
  · rfl
  · exact mapM_eq_some_iff.2 (each.flip.imp fun _ _ form => byte?_of_isNat form)

theorem entries?_of_isText {p : Doc → Tree → Prop} {entries : List (String × Doc)}
    (each : List.Forall₂ (fun d e => e.1.IsText d.1 ∧ p d.2 e.2) entries given) :
    ∃ texts, entries? (.map given) = some texts ∧
      List.Forall₂ (fun e d => e.1 = d.1 ∧ p d.2 e.2) texts entries := by
  induction each with
  | nil => exact ⟨[], rfl, .nil⟩
  | @cons d e _ _ first _ ih =>
      obtain ⟨key, value⟩ := first
      obtain ⟨texts, read, others⟩ := ih
      refine ⟨(d.1, e.2) :: texts, mapM_eq_some_iff.2 (.cons ?_ (mapM_eq_some_iff.1 read)),
        .cons ⟨rfl, value⟩ others⟩
      rw [text?_of_isText key, Option.map_some]

end Forms

end Msgpack.Tree

theorem Shape.eq_null_of_takes_nil {s : Shape} {d : Doc} (takes : s.Takes d .nil) : d = .null := by
  cases s with
  | option s =>
      rcases takes with ⟨null, -⟩ | ⟨-, takes⟩
      · exact null
      · exact eq_null_of_takes_nil takes
  | bool | nat | text | bytes | list | dictionary | record =>
      cases d <;> simp [Takes, Tree.IsNat, Tree.IsText, Tree.IsBytes] at takes

theorem Shape.admits_of_option {s : Shape} {d : Doc} (filled : d ≠ .null)
    (admits : (Shape.option s).Admits d) : s.Admits d := by
  cases d with
  | null => exact absurd rfl filled
  | _ => exact admits

section Lists

variable {fields : Fields} {entries : List (String × Doc)} {listed : List (Tree × Tree)}

theorem Fields.key_of_lists : ∀ {fields : Fields} {entries : List (String × Doc)}
    {listed : List (Tree × Tree)}, fields.Lists entries listed →
      ∀ e ∈ listed, ∃ name ∈ fields.names, e.1 = .str (Bytes.ofText name)
  | .nil, [], _, rfl => List.forall_mem_nil _
  | .cons .., (_, _) :: _, _, ⟨_, value⟩ => by
    rcases value with ⟨-, others⟩ | ⟨t, more, rfl, -, others⟩
    · intro e mem
      obtain ⟨name, known, key⟩ := key_of_lists others e mem
      exact ⟨name, List.mem_cons_of_mem _ known, key⟩
    · refine List.forall_mem_cons.2 ⟨⟨_, List.mem_cons_self, rfl⟩, fun e mem => ?_⟩
      obtain ⟨name, known, key⟩ := key_of_lists others e mem
      exact ⟨name, List.mem_cons_of_mem _ known, key⟩

theorem Fields.under_of_fresh {name : String} (lists : fields.Lists entries listed)
    (fresh : name ∉ fields.names) : Tree.under name listed = [] := by
  refine Tree.under_eq_nil fun e mem same => ?_
  obtain ⟨other, known, key⟩ := key_of_lists lists e mem
  rw [key] at same
  exact fresh (Bytes.ofText_injective (Tree.str.inj same) ▸ known)

theorem Fields.length_under_le (name : String) : ∀ {fields : Fields} {entries : List (String × Doc)}
    {listed : List (Tree × Tree)}, fields.names.Nodup → fields.Lists entries listed →
      (Tree.under name listed).length ≤ 1
  | .nil, [], _, _, rfl => Nat.zero_le 1
  | .cons field .., (_, _) :: _, _, nodup, ⟨_, value⟩ => by
    obtain ⟨fresh, nodup⟩ := List.nodup_cons.1 nodup
    rcases value with ⟨-, others⟩ | ⟨t, more, rfl, -, others⟩
    · exact length_under_le name nodup others
    · by_cases here : name = field
      · rw [here, Tree.under_cons_self, under_of_fresh others fresh]
        exact Nat.le_refl 1
      · have other : Tree.str (Bytes.ofText field) ≠ .str (Bytes.ofText name) := fun same =>
          here (Bytes.ofText_injective (Tree.str.inj same)).symm
        rw [Tree.under_cons_of_ne other]
        exact length_under_le name nodup others

variable {given others : List (Tree × Tree)} (perm : given.Perm (listed ++ others))
  (lists : fields.Lists entries listed) (strange : Tree.Strange fields.names others)

include perm lists strange

theorem Fields.named_of_lists : Tree.Named given := by
  intro e mem
  rcases List.mem_append.1 (perm.subset mem) with mem | mem
  · obtain ⟨name, -, key⟩ := key_of_lists lists e mem
    exact ⟨_, key⟩
  · obtain ⟨k, key, -⟩ := strange e mem
    exact ⟨k, key⟩

theorem Fields.under_of_lists (nodup : fields.names.Nodup) {name : String}
    (known : name ∈ fields.names) : Tree.under name given = Tree.under name listed := by
  have beside : Tree.under name others = [] := by
    refine Tree.under_eq_nil fun e mem same => ?_
    obtain ⟨k, key, unknown⟩ := strange e mem
    rw [key] at same
    exact unknown name known (Tree.str.inj same)
  exact Tree.under_of_perm perm beside (length_under_le name nodup lists)

end Lists

open Msgpack (format)

section Reading

mutual

/-- A tree for which a document is taken is read as the document. -/
theorem Shape.read_of_takes : ∀ {s : Shape} {d : Doc} {t : Tree}, s.Admits d → s.Takes d t →
    s.read format t = some d
  | .bool, .bool _, _, _, rfl => rfl
  | .nat bound, .int i, t, ⟨_, bounded, _⟩, ⟨n, same, form⟩ => by
    subst same
    have number : format.nat? t = some n := Tree.nat?_of_isNat form
    have small : n ≤ bound := Int.ofNat_le.1 bounded
    simp only [Shape.read, number, small, if_true]
  | .text, .text s, t, _, form => by
    have text : format.text? t = some s := Tree.text?_of_isText form
    rw [Shape.read, text, Option.map_some]
  | .bytes, .bytes b, t, _, form => by
    have bytes : format.bytes? t = some b := Tree.bytes?_of_isBytes form
    rw [Shape.read, bytes, Option.map_some]
  | .option s, d, t, admits, takes => by
    rcases takes with ⟨rfl, rfl⟩ | ⟨filled, takes⟩
    · rfl
    · have read := Shape.read_of_takes (Shape.admits_of_option filled admits) takes
      cases t with
      | nil => exact absurd (Shape.eq_null_of_takes_nil takes) filled
      | _ => exact read
  | .list s, .list items, _, admits, ⟨ts, rfl, each⟩ => by
    have both := (List.forall₂_and_left _ _).2 ⟨admits, each⟩
    have all : ts.mapM (s.read format) = some items :=
      mapM_eq_some_iff.2 (both.flip.imp fun _ _ item => Shape.read_of_takes item.1 item.2)
    have inside : format.items? (.array ts) = some ts := rfl
    simp only [Shape.read, inside, all, Option.map_some]
  | .dictionary s, .map entries, _, admits, ⟨given, rfl, each⟩ => by
    have both := (List.forall₂_and_left _ _).2 ⟨admits, each⟩
    obtain ⟨texts, keys, values⟩ := Tree.entries?_of_isText
      (p := fun d t => s.Admits d ∧ s.Takes d t)
      (both.imp fun _ _ ⟨admits, key, takes⟩ => ⟨key, admits, takes⟩)
    have all : (texts.mapM fun e => (s.read format e.2).map (e.1, ·)) = some entries := by
      refine mapM_eq_some_iff.2 (values.imp fun e d ⟨key, admits, takes⟩ => ?_)
      rw [Shape.read_of_takes admits takes, key]
      rfl
    have inside : format.entries? (.map given) = some texts := keys
    simp only [Shape.read, inside, all, Option.map_some]
  | .record fields, .map entries, _, ⟨nodup, admits⟩,
      ⟨given, listed, others, rfl, perm, lists, strange⟩ => by
    have named := Fields.named_of_lists perm lists strange
    obtain ⟨found, read⟩ := Tree.fields?_of_named named fields.names
    -- what is found at each place is what is listed for the field there
    have values (j : Nat) (name : String) (there : fields.names[j]? = some name) :
        valuesAt j found = Tree.under name listed := by
      rw [Tree.valuesAt_eq_under nodup there named read]
      exact Fields.under_of_lists perm lists strange nodup (List.mem_of_getElem? there)
    have once : (found.map Prod.fst).Nodup := by
      refine nodup_iff_valuesAt.2 fun j => ?_
      cases there : fields.names[j]? with
      | none => simp [Tree.valuesAt_eq_nil nodup there named read]
      | some name => exact values j name there ▸ Fields.length_under_le name nodup lists
    have all : fields.read format found 0 = some entries := by
      refine Fields.read_of_lists nodup admits lists fun j name there => ?_
      rw [Nat.zero_add, lookup_eq_head?, values j name there]
    have place : format.fields? fields.names (.map given) = some found := read
    simp only [Shape.read, place, once, if_true, all, Option.map_some]

theorem Fields.read_of_lists : ∀ {fields : Fields} {entries : List (String × Doc)}
    {listed : List (Tree × Tree)} {found : List (Nat × Tree)} {i : Nat}, fields.names.Nodup →
      fields.Admits entries → fields.Lists entries listed →
      (∀ j name, fields.names[j]? = some name →
        found.lookup (i + j) = (Tree.under name listed).head?) →
      fields.read format found i = some entries
  | .nil, [], _, _, _, _, _, _, _ => rfl
  | .cons name s default rest, (_, d) :: entries, listed, found, i, nodup, ⟨rfl, admits, others⟩,
      ⟨_, value⟩, finds => by
    obtain ⟨fresh, distinct⟩ := List.nodup_cons.1 nodup
    have here : found.lookup i = (Tree.under name listed).head? := finds 0 name rfl
    have later (j : Nat) (other : String) (there : rest.names[j]? = some other) :
        found.lookup (i + 1 + j) = (Tree.under other listed).head? := by
      rw [Nat.add_right_comm]
      exact finds (j + 1) other there
    rcases value with ⟨rfl, lists⟩ | ⟨t, more, rfl, takes, lists⟩
    -- a field that is left out here is not listed further on either
    · rw [Fields.under_of_fresh lists fresh] at here
      have after : rest.read format found (i + 1) = some entries :=
        Fields.read_of_lists distinct others lists later
      simp [Fields.read, here, after]
    · rw [Tree.under_cons_self] at here
      have after : rest.read format found (i + 1) = some entries := by
        refine Fields.read_of_lists distinct others lists fun j other there => ?_
        have apart : Tree.str (Bytes.ofText name) ≠ .str (Bytes.ofText other) := fun same =>
          fresh (Bytes.ofText_injective (Tree.str.inj same) ▸ List.mem_of_getElem? there)
        rw [later j other there, Tree.under_cons_of_ne apart]
      simp [Fields.read, here, after, Shape.read_of_takes admits takes]

end

end Reading

section Refusing

theorem Shape.not_repeats_nil {s : Shape} : ¬ s.Repeats .nil := by
  cases s with
  | option s => exact not_repeats_nil (s := s)
  | bool | nat | text | bytes => exact id
  | list | dictionary | record => rintro ⟨_, same, _⟩; cases same

mutual

/-- A tree in which a map names a field twice is not read. -/
theorem Shape.read_of_repeats : ∀ {s : Shape} {t : Tree}, s.distinct → s.Repeats t →
    s.read format t = none
  | .option s, t, distinct, repeats => by
    have read := Shape.read_of_repeats (s := s) distinct repeats
    cases t with
    | nil => exact absurd repeats Shape.not_repeats_nil
    | _ => simpa [Shape.read, format] using read
  | .list s, _, distinct, ⟨ts, rfl, u, mem, repeats⟩ => by
    have inside : format.items? (.array ts) = some ts := rfl
    have fails : ts.mapM (s.read format) = none :=
      mapM_eq_none mem (Shape.read_of_repeats (s := s) distinct repeats)
    simp only [Shape.read, inside, fails, Option.map_none]
  | .dictionary s, _, distinct, ⟨given, rfl, e, mem, repeats⟩ => by
    have value : s.read format e.2 = none := Shape.read_of_repeats (s := s) distinct repeats
    simp only [Shape.read]
    split
    · rfl
    · next texts read =>
      obtain ⟨x, here, same⟩ := exists_of_mapM_eq_some read mem
      obtain ⟨k, -, rfl⟩ := Option.map_eq_some_iff.1 same
      rw [mapM_eq_none here, Option.map_none]
      rw [value, Option.map_none]
  | .record fields, _, distinct, ⟨given, rfl, repeats⟩ => by
    obtain ⟨nodup, within⟩ := Bool.and_eq_true_iff.1 distinct
    have nodup := of_decide_eq_true nodup
    simp only [Shape.read]
    split
    · rfl
    next found read =>
    split
    · next once =>
      have few := nodup_iff_valuesAt.1 once
      rcases repeats with ⟨name, known, twice⟩ | repeats
      · obtain ⟨i, there⟩ := List.mem_iff_getElem?.1 known
        have many := (Tree.under_sublist nodup there read).length_le
        have := few i
        omega
      · have fails : fields.read format found 0 = none := by
          refine Fields.read_of_repeats within repeats fun j name there t mem => ?_
          rw [Nat.zero_add]
          exact lookup_of_mem once ((Tree.under_sublist nodup there read).subset mem)
        rw [fails, Option.map_none]
    · rfl

theorem Fields.read_of_repeats : ∀ {fields : Fields} {given : List (Tree × Tree)}
    {found : List (Nat × Tree)} {i : Nat}, fields.distinct → fields.Repeats given →
      (∀ j name, fields.names[j]? = some name → ∀ t ∈ Tree.under name given,
        found.lookup (i + j) = some t) →
      fields.read format found i = none
  | .cons name s default rest, given, found, i, distinct, repeats, finds => by
    obtain ⟨here, others⟩ := Bool.and_eq_true_iff.1 distinct
    rcases repeats with ⟨t, mem, repeats⟩ | repeats
    · have there : found.lookup i = some t := finds 0 name rfl t mem
      simp only [Fields.read, there, Shape.read_of_repeats here repeats]
    · have after : rest.read format found (i + 1) = none := by
        refine Fields.read_of_repeats others repeats fun j name there => ?_
        rw [Nat.add_right_comm]
        exact finds (j + 1) name there
      simp only [Fields.read, after]
      split
      · next none => cases none
      · rfl

end

end Refusing

end ContractHost
