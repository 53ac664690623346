import ContractHost.Proofs.CodeStore.Entry
import Mathlib.Data.List.Perm.Subperm

/-!
What a code store lists.

The directory of a store may hold entries and anything else. A name in it counts if
it is read as a checksum for which there is a code, and the code is looked for in
the entry of the checksum (`list_eq`). So exactly the stored codes are listed; but a
name need not be that of an entry to be read, so a stored code is listed once for
every name that spells its checksum (`count_listing`). No code is listed twice exactly
if the only such names are those of the entries.
-/

namespace ContractHost

namespace Checksum

theorem sort_perm (l : List Checksum) : (sort l).Perm l := List.mergeSort_perm _ _

theorem pairwise_sort (l : List Checksum) : (sort l).Pairwise fun a b => (compare a b).isLE := by
  refine List.pairwise_mergeSort (fun a b c => ?_) (fun a b => ?_) l
  · exact Std.TransCmp.isLE_trans
  · rw [Std.OrientedOrd.eq_swap (a := b) (b := a)]
    cases compare a b <;> rfl

theorem strict_iff_nodup {l : List Checksum} (asc : l.Pairwise fun a b => (compare a b).isLE) :
    (l.Pairwise fun a b => compare a b = .lt) ↔ l.Nodup := by
  constructor
  · refine List.Pairwise.imp fun {a b} lt same => ?_
    simp [same, Std.ReflCmp.compare_self] at lt
  · intro nodup
    refine (asc.and nodup).imp fun {a b} both => ?_
    cases order : compare a b with
    | lt => rfl
    | eq => exact absurd (Std.LawfulEqOrd.eq_of_compare order) both.2
    | gt => simp [order] at both

end Checksum

namespace CodeStore

/-- A filter that only looks at a state is a filter by what it sees there. -/
theorem filterM_eq {σ α : Type} {look : α → StateM σ Bool} {seen : α → Bool} {x : σ}
    (looks : ∀ a, look a x = (seen a, x)) (l : List α) : l.filterM look x = (l.filter seen, x) := by
  have gathered (acc : List α) :
      l.filterAuxM look acc x = ((l.filter seen).reverse ++ acc, x) := by
    induction l generalizing acc with
    | nil => rfl
    | cons a rest ih =>
        simp only [List.filterAuxM, bind, StateT.bind, looks, ih]
        cases see : seen a <;> simp [see]
  simp only [List.filterM, bind, StateT.bind, gathered, List.append_nil]
  exact congrArg (·, x) (List.reverse_reverse _)

variable {s : CodeStore} {d : Disk} {c : Checksum} {names : List Bytes} {dataDir : String}

def listing (s : CodeStore) (d : Disk) (names : List Bytes) : List Checksum :=
  Checksum.sort ((names.filterMap checksumOfName?).filter (s.has d))

theorem list_eq (s : CodeStore) (d : Disk) : s.list (m := StateM Disk) d =
    match d.list s.root with
    | .error e => (.error (.storage ("list " ++ s.root.text) e), d)
    | .ok names => (.ok (s.listing d names), d) := by
  simp only [list, FileSystem.list, bind, StateT.bind]
  cases d.list s.root with
  | error e => rfl
  | ok names =>
      simp only [StateT.bind, bind, filterM_eq (s.contains_eq d)]
      rfl

/-- The name of a directory is read in every spelling, also in others than that of an entry. -/
theorem checksumOfName?_of_spelledBy {text : String} (spelled : c.SpelledBy text) :
    checksumOfName? (Bytes.ofText text) = some c := by
  simp [checksumOfName?, Checksum.parse_of_spelledBy spelled, Except.toOption]

theorem checksumOfName?_toHex (c : Checksum) : checksumOfName? (Bytes.ofText c.toHex) = some c :=
  checksumOfName?_of_spelledBy c.spelledBy_toHex

theorem mem_listing (entry : s.has d c = true → Bytes.ofText c.toHex ∈ names) :
    c ∈ s.listing d names ↔ s.has d c = true := by
  rw [listing, (Checksum.sort_perm _).mem_iff, List.mem_filter, List.mem_filterMap]
  exact ⟨fun found => found.2, fun held => ⟨⟨_, entry held, checksumOfName?_toHex c⟩, held⟩⟩

/-- A checksum is listed as often as a name spells it. -/
theorem count_listing (held : s.has d c = true) :
    (s.listing d names).count c = names.countP fun name => checksumOfName? name = some c := by
  rw [listing, (Checksum.sort_perm _).count_eq, List.count_filter (p := s.has d) held,
    List.count_filterMap]
  exact List.countP_congr fun name _ => by simp

theorem countP_le_one_iff {α : Type} {l : List α} {p : α → Bool} {a : α} (nodup : l.Nodup)
    (mem : a ∈ l) (holds : p a = true) : l.countP p ≤ 1 ↔ ∀ b ∈ l, p b = true → b = a := by
  rw [List.countP_eq_length_filter]
  constructor
  · intro once b other also
    by_contra ne
    have both : [b, a].Subperm (l.filter p) :=
      List.Nodup.subperm (by simp [ne]) (by simp [List.mem_filter, *])
    have := both.length_le
    simp only [List.length_cons, List.length_nil] at this
    omega
  · intro only
    refine ((nodup.filter p).subperm fun b mem => ?_ : (l.filter p).Subperm [a]).length_le
    obtain ⟨there, also⟩ := List.mem_filter.1 mem
    exact List.mem_singleton.2 (only b there also)

/-- What a store lists, by the names in its directory. -/
structure Lists (s : CodeStore) (d : Disk) (names : List Bytes) (listed : List Checksum) :
    Prop where
  ascending : listed.Pairwise fun a b => (compare a b).isLE
  /-- Exactly the stored codes are listed. -/
  mem_iff (c : Checksum) : c ∈ listed ↔ s.contains (m := StateM Disk) c d = (true, d)
  /-- Each of them is listed as often as a name in the directory is read as its checksum. -/
  count_eq {c : Checksum} (mem : c ∈ listed) :
    listed.count c = names.countP fun name => checksumOfName? name = some c
  /-- So all are listed once exactly if no name but that of its entry is read as the checksum of a
  stored code. -/
  strict_iff : (listed.Pairwise fun a b => compare a b = .lt) ↔
    ∀ c ∈ listed, ∀ name ∈ names, checksumOfName? name = some c → name = Bytes.ofText c.toHex
  /-- Every other spelling that is a name in the directory is read as the checksum as well. -/
  respelled {c : Checksum} {text : String} (mem : c ∈ listed) (there : Bytes.ofText text ∈ names)
    (spelled : c.SpelledBy text) (other : text ≠ c.toHex) : 2 ≤ listed.count c

theorem lists_listing (nodup : names.Nodup)
    (entry : ∀ {c : Checksum}, s.has d c = true → Bytes.ofText c.toHex ∈ names) :
    s.Lists d names (s.listing d names) := by
  have asc : (s.listing d names).Pairwise fun a b => (compare a b).isLE := Checksum.pairwise_sort _
  have held {c : Checksum} : c ∈ s.listing d names ↔ s.has d c = true := mem_listing entry
  have once {c : Checksum} (mem : c ∈ s.listing d names) : (s.listing d names).count c ≤ 1 ↔
      ∀ name ∈ names, checksumOfName? name = some c → name = Bytes.ofText c.toHex := by
    have own := decide_eq_true (checksumOfName?_toHex c)
    rw [count_listing (held.1 mem), countP_le_one_iff nodup (entry (held.1 mem)) own]
    simp only [decide_eq_true_eq]
  refine ⟨asc, fun c => ?_, fun mem => count_listing (held.1 mem), ?_, ?_⟩
  · rw [held, contains_eq]
    exact ⟨fun has => by rw [has], fun same => congrArg Prod.fst same⟩
  · rw [Checksum.strict_iff_nodup asc, List.nodup_iff_count_le_one]
    constructor
    · exact fun all c mem => (once mem).1 (all c)
    · intro only c
      by_cases mem : c ∈ s.listing d names
      · exact (once mem).2 (only c mem)
      · rw [List.count_eq_zero_of_not_mem mem]
        exact Nat.zero_le 1
  · intro c text mem there spelled other
    by_contra few
    have same := (once mem).1 (by omega) _ there (checksumOfName?_of_spelledBy spelled)
    exact other (Bytes.ofText_injective same)

theorem entry_listed (held : (within dataDir).has d c = true) :
    ∃ names, d.list (within dataDir).root = .ok names ∧ Bytes.ofText c.toHex ∈ names := by
  obtain ⟨b, stands⟩ := Disk.Stands.of_isFile plain_codeName held
  have passes := stands.passes
  rw [codeDir, Path.components_child, Disk.passes_append] at passes
  obtain ⟨way, -, entry, -⟩ := passes
  have filled : (within dataDir).root.text.isEmpty = false := Path.text_child_isEmpty (by decide)
  have origin := Disk.origin_of_child filled
    (Disk.origin_of_child (codeDir_text (within dataDir) c) stands.origin)
  rw [(plain_toHex c).enter] at entry
  refine ⟨d.names (d.placeOf (within dataDir).root), ?_, Disk.mem_names_iff.2 ⟨_, entry⟩⟩
  rw [Disk.list, Disk.find_of_passes origin way]

/-- Whatever is in the directory of a store: if it can be read, the checksums of exactly the stored
codes are listed, in ascending order, and each as often as a name spells it. If it cannot, nothing
is stored. -/
theorem list_stored (dataDir : String) (d : Disk) :
    let s := within dataDir
    match d.list s.root with
    | .ok names =>
      ∃ listed, s.list (m := StateM Disk) d = (.ok listed, d) ∧ s.Lists d names listed
    | .error e =>
      s.list (m := StateM Disk) d = (.error (.storage ("list " ++ s.root.text) e), d) ∧
        ∀ c, s.contains (m := StateM Disk) c d = (false, d) := by
  intro s
  have listed := s.list_eq d
  split
  · next names read =>
    rw [read] at listed
    refine ⟨_, listed, lists_listing (Disk.nodup_of_list read) fun held => ?_⟩
    obtain ⟨names', read', entry⟩ := entry_listed held
    cases read.symm.trans read'
    exact entry
  · next e unread =>
    rw [unread] at listed
    refine ⟨listed, fun c => ?_⟩
    have none : s.has d c = false := by
      refine Bool.eq_false_iff.2 fun held => ?_
      obtain ⟨names, read, -⟩ := entry_listed held
      exact absurd (unread.symm.trans read) nofun
    rw [contains_eq, none]

end CodeStore

namespace Sample

def shelf : CodeStore := .within "data"

def filed : Checksum := ⟨List.replicate 32 0xAA, rfl⟩

def capitals : String := String.ofList (List.replicate 64 'A')

/-- A disk with one entry, and with a directory whose name is the checksum of the entry in
capitals. -/
def shelved : Disk :=
  let made := ((Disk.blank [0x77]).createDirs (shelf.codeDir filed)).2
  let stored := (made.write (shelf.codePath filed) [97]).2
  (stored.createDirs (shelf.root.child capitals)).2

end Sample

/-- The entry is listed twice. -/
theorem listed_twice :
    Sample.shelf.list (m := StateM Disk) Sample.shelved =
        (.ok [Sample.filed, Sample.filed], Sample.shelved) ∧
      ¬ [Sample.filed, Sample.filed].Pairwise fun a b => compare a b = .lt := by
  have read : Sample.shelved.list Sample.shelf.root =
      .ok [Bytes.ofText Sample.capitals, Bytes.ofText Sample.filed.toHex] := by
    decide +kernel
  have capitals : CodeStore.checksumOfName? (Bytes.ofText Sample.capitals) =
      some Sample.filed := by
    decide +kernel
  have stored : Sample.shelf.has Sample.shelved Sample.filed = true := by decide +kernel
  have sorted : Checksum.sort [Sample.filed, Sample.filed] = [Sample.filed, Sample.filed] :=
    List.mergeSort_of_pairwise (by simp)
  refine ⟨?_, by simp⟩
  rw [CodeStore.list_eq, read]
  dsimp only
  rw [CodeStore.listing, List.filterMap_cons_some capitals,
    List.filterMap_cons_some (CodeStore.checksumOfName?_toHex _), List.filterMap_nil,
    List.filter_cons_of_pos stored, List.filter_cons_of_pos stored, List.filter_nil, sorted]

end ContractHost
