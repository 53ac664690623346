import ContractHost.Files.Disk
import Mathlib.Data.List.Nodup

/-!
What operations on a disk do, said by the places that paths lead to.

A path leads to one place, whatever stands on the disk (`placeOf`); what the disk
decides is only whether the way there can be gone. A way that can be gone stays open
(`Passes`), since directories are never taken away (`Within`). Where the way is
known to be open, even what stands at a single place can be told (`Only`).
-/

namespace ContractHost

namespace Path

variable {p : Path} {name : String}

@[simp] theorem components_child :
    (p.child name).components = p.components ++ [Bytes.ofText name] := by
  simp [child, components]

theorem text_child (p : Path) (name : String) : (p.child name).text = join p.text name := by
  simp [child, text]

theorem text_child_isEmpty (filled : name ≠ "") : (p.child name).text.isEmpty = false := by
  rw [text_child]
  unfold join
  split
  · simpa using filled
  split <;> simp [filled]

theorem length_text_le_child (p : Path) (name : String) :
    (Bytes.ofText p.text).length ≤ (Bytes.ofText (p.child name).text).length := by
  have append (s t : String) : (Bytes.ofText s).length ≤ (Bytes.ofText (s ++ t)).length := by
    simp [Bytes.ofText]
  rw [text_child]
  unfold join
  split
  · next empty => simp [String.isEmpty_iff.1 empty, Bytes.ofText]
  split
  · exact append _ _
  · rw [String.append_assoc]
    exact append _ _

@[simp] theorem endsInSlash_child : (p.child name).endsInSlash = false := by
  simp [child, endsInSlash]

theorem length_text_child {other : String}
    (length : (Bytes.ofText other).length = (Bytes.ofText name).length) :
    (Bytes.ofText (p.child other).text).length = (Bytes.ofText (p.child name).text).length := by
  have append (s t : String) :
      (Bytes.ofText (s ++ t)).length = (Bytes.ofText s).length + (Bytes.ofText t).length := by
    simp [Bytes.ofText]
  rw [text_child, text_child]
  unfold join
  split
  · exact length
  split
  · rw [append, append, length]
  · rw [append, append, append, append, length]

end Path

namespace Disk

/-- A name that neither stays at a directory nor goes back, and that is not too long. -/
structure Plain (name : Bytes) : Prop where
  stays : name ≠ [0x2E]
  back : name ≠ [0x2E, 0x2E]
  length : name.length ≤ maxName

theorem Plain.enter {name : Bytes} (plain : Plain name) (here : Place) :
    Disk.enter here name = here ++ [name] := by
  rw [Disk.enter, if_neg plain.stays, if_neg plain.back]

def start (d : Disk) (p : Path) : Place := if p.isAbsolute then [] else d.cwd

def placeOf (d : Disk) (p : Path) : Place := p.components.foldl enter (d.start p)

/-- From a place on, all names lead to directories. -/
def Passes (d : Disk) (here : Place) : List Bytes → Prop
  | [] => True
  | name :: rest =>
    name.length ≤ maxName ∧ d.node? (enter here name) = some .dir ∧ d.Passes (enter here name) rest

/-- A disk has become another one: all directories are still there, and files were made or changed
only at a place or below it. -/
structure Within (place : Place) (d d' : Disk) : Prop where
  cwd : d'.cwd = d.cwd
  dirs {p : Place} : d.node? p = some .dir → d'.node? p = some .dir
  files {p : Place} (outside : ¬ place <+: p) (b : Bytes) :
    d'.node? p = some (.file b) ↔ d.node? p = some (.file b)

section Nodes

variable {d : Disk} {p q : Place} {n : Node}

theorem eq_of_nodes {d e : Disk} (nodes : d.nodes = e.nodes) (cwd : d.cwd = e.cwd) : d = e := by
  cases d
  cases e
  cases nodes
  cases cwd
  rfl

theorem node?_of_ne_nil (filled : p ≠ []) : d.node? p = d.nodes.get? p := by
  cases p with
  | nil => exact absurd rfl filled
  | cons => rfl

theorem node?_put_self (filled : p ≠ []) : (d.put p n).node? p = some n := by
  rw [node?_of_ne_nil filled, put, Table.get?_insert_self]

theorem node?_put_of_ne (ne : q ≠ p) : (d.put p n).node? q = d.node? q := by
  cases q with
  | nil => rfl
  | cons => exact Table.get?_insert_of_ne _ _ ne

theorem put_of_node? (filled : p ≠ []) (there : d.node? p = some n) : d.put p n = d := by
  rw [node?_of_ne_nil filled] at there
  rw [put, Table.insert_of_get? there]

theorem ne_nil_of_node? (other : d.node? p ≠ some .dir) : p ≠ [] := by
  rintro rfl
  exact other rfl

end Nodes

section Names

variable {d : Disk} {place : Place} {name : Bytes}

theorem lastName_eq_some_iff {k : Place} :
    (match k.getLast? with
      | some name => if k.dropLast = place then some name else none
      | none => none) = some name ↔ k = place ++ [name] := by
  constructor
  · intro found
    split at found
    · next last =>
      split at found
      · next before =>
        cases found
        rw [← before, List.dropLast_append_getLast? _ last]
      · cases found
    · cases found
  · rintro rfl
    simp

theorem mem_names_iff :
    name ∈ d.names place ↔ ∃ n, d.node? (place ++ [name]) = some n := by
  rw [node?_of_ne_nil (by simp), ← Option.isSome_iff_exists]
  show _ ↔ d.nodes.contains (place ++ [name]) = true
  rw [← Table.mem_keys_iff, names, List.mem_filterMap]
  refine (exists_congr fun k => and_congr_right fun _ => lastName_eq_some_iff).trans ?_
  exact exists_eq_right

theorem nodup_names (d : Disk) (place : Place) : (d.names place).Nodup := by
  refine d.nodes.nodup_keys.filterMap fun a b name left right => ?_
  exact (lastName_eq_some_iff.1 left).trans (lastName_eq_some_iff.1 right).symm

theorem nodup_of_list {p : Path} {names : List Bytes} (read : d.list p = .ok names) :
    names.Nodup := by
  unfold list at read
  split at read
  · cases read
  · cases read
  · cases read
    exact d.nodup_names _

end Names

namespace Within

variable {place : Place} {d e f : Disk}

theorem refl (place : Place) (d : Disk) : Within place d d := ⟨rfl, id, fun _ _ => Iff.rfl⟩

theorem trans (hd : Within place d e) (he : Within place e f) : Within place d f where
  cwd := he.cwd.trans hd.cwd
  dirs there := he.dirs (hd.dirs there)
  files outside b := (he.files outside b).trans (hd.files outside b)

theorem start (w : Within place d e) (p : Path) : e.start p = d.start p := by
  rw [Disk.start, Disk.start, w.cwd]

theorem placeOf (w : Within place d e) (p : Path) : e.placeOf p = d.placeOf p := by
  rw [Disk.placeOf, Disk.placeOf, w.start]

theorem origin (w : Within place d e) (p : Path) : e.origin p = d.origin p := by
  rw [Disk.origin, Disk.origin, w.cwd]

theorem passes (w : Within place d e) {here : Place} {names : List Bytes}
    (passes : d.Passes here names) : e.Passes here names := by
  induction names generalizing here with
  | nil => trivial
  | cons name rest ih => exact ⟨passes.1, w.dirs passes.2.1, ih passes.2.2⟩

theorem put_dir {p : Place} (missing : d.node? p = none) : Within place d (d.put p .dir) where
  cwd := rfl
  dirs {q} there := by
    have ne : q ≠ p := by
      rintro rfl
      rw [missing] at there
      cases there
    rwa [node?_put_of_ne ne]
  files {q} _ b := by
    by_cases same : q = p
    · subst same
      have filled : q ≠ [] := ne_nil_of_node? (d := d) (by simp [missing])
      simp [node?_put_self filled, missing]
    · rw [node?_put_of_ne same]

theorem put_file {p : Place} (below : place <+: p) (other : d.node? p ≠ some .dir) (b : Bytes) :
    Within place d (d.put p (.file b)) where
  cwd := rfl
  dirs {q} there := by
    have ne : q ≠ p := by
      rintro rfl
      exact other there
    rwa [node?_put_of_ne ne]
  files {q} outside b := by
    have ne : q ≠ p := by
      rintro rfl
      exact outside below
    rw [node?_put_of_ne ne]

end Within

/-- A disk has become another one, with changes only at a place or below it. -/
structure Only (place : Place) (d d' : Disk) : Prop where
  cwd : d'.cwd = d.cwd
  nodes {p : Place} (outside : ¬ place <+: p) : d'.node? p = d.node? p

namespace Only

variable {place : Place} {d e f : Disk}

theorem refl (place : Place) (d : Disk) : Only place d d := ⟨rfl, fun _ => rfl⟩

theorem trans (hd : Only place d e) (he : Only place e f) : Only place d f where
  cwd := he.cwd.trans hd.cwd
  nodes outside := (he.nodes outside).trans (hd.nodes outside)

theorem placeOf (o : Only place d e) (p : Path) : e.placeOf p = d.placeOf p := by
  rw [Disk.placeOf, Disk.placeOf, Disk.start, Disk.start, o.cwd]

theorem put {p : Place} (below : place <+: p) (n : Node) : Only place d (d.put p n) where
  cwd := rfl
  nodes {q} outside := by
    refine node?_put_of_ne ?_
    rintro rfl
    exact outside below

end Only

section Ways

variable {d : Disk} {here : Place} {names : List Bytes}

theorem walk_of_passes (passes : d.Passes here names) (more : List Bytes) :
    d.walk here (names ++ more) = d.walk (names.foldl enter here) more := by
  induction names generalizing here with
  | nil => rfl
  | cons name rest ih =>
      obtain ⟨short, dir, others⟩ := passes
      simp only [List.cons_append, walk, Nat.not_lt.2 short, if_false, dir, ih others,
        List.foldl_cons]

theorem passes_append {more : List Bytes} :
    d.Passes here (names ++ more) ↔ d.Passes here names ∧ d.Passes (names.foldl enter here) more := by
  induction names generalizing here with
  | nil => simp [Passes]
  | cons name rest ih => simp [Passes, ih, and_assoc]

theorem passes_of_walk {last : Bytes} {r : Place × Option Node}
    (walked : d.walk here (names ++ [last]) = .ok r) : d.Passes here names := by
  induction names generalizing here with
  | nil => trivial
  | cons name rest ih =>
      simp only [List.cons_append, walk] at walked
      split at walked
      · cases walked
      next short =>
      split at walked
      · next dir => exact ⟨Nat.not_lt.1 short, dir, ih walked⟩
      · simp at walked
      · simp at walked

theorem place_of_walk {place : Place} {n : Option Node}
    (walked : d.walk here names = .ok (place, n)) :
    place = names.foldl enter here ∧ n = d.node? place ∨ names = [] := by
  induction names generalizing here with
  | nil => exact .inr rfl
  | cons name rest ih =>
      refine .inl ?_
      simp only [walk] at walked
      split at walked
      · cases walked
      split at walked
      · next dir =>
        rcases ih walked with done | rfl
        · exact done
        · cases walked
          exact ⟨rfl, dir.symm⟩
      · next file =>
        split at walked
        · next last =>
          rw [List.isEmpty_iff.1 last]
          cases walked
          exact ⟨rfl, file.symm⟩
        · cases walked
      · next missing =>
        split at walked
        · next last =>
          rw [List.isEmpty_iff.1 last]
          cases walked
          exact ⟨rfl, missing.symm⟩
        · cases walked

theorem makeDirs_of_passes (passes : d.Passes here names) (made : Bool) :
    d.makeDirs made here names = (.ok (), d) := by
  induction names generalizing here with
  | nil => rfl
  | cons name rest ih =>
      obtain ⟨short, dir, others⟩ := passes
      simp only [makeDirs, Nat.not_lt.2 short, if_false, dir, ih others]

theorem within_makeDirs (place : Place) (d : Disk) (made : Bool) (here : Place)
    (names : List Bytes) : Within place d (d.makeDirs made here names).2 := by
  induction names generalizing d made here with
  | nil => exact .refl place d
  | cons name rest ih =>
      rw [makeDirs]
      split
      · exact .refl place d
      · dsimp only
        split
        · exact ih d made _
        · exact .refl place d
        · next missing => exact (Within.put_dir missing).trans (ih _ true _)

theorem passes_makeDirs {made : Bool} {d' : Disk}
    (done : d.makeDirs made here names = (.ok (), d')) : d'.Passes here names := by
  induction names generalizing d made here with
  | nil => trivial
  | cons name rest ih =>
      simp only [makeDirs] at done
      split at done
      · cases done
      next short =>
      split at done
      · next dir =>
        have kept : Within [] d d' := by
          have within := within_makeDirs [] d made (enter here name) rest
          rwa [done] at within
        exact ⟨Nat.not_lt.1 short, kept.dirs dir, ih done⟩
      · cases done
      · next missing =>
        have filled : enter here name ≠ [] := ne_nil_of_node? (d := d) (by simp [missing])
        have kept : Within [] (d.put (enter here name) .dir) d' := by
          have within := within_makeDirs [] (d.put (enter here name) .dir) true (enter here name) rest
          rwa [done] at within
        exact ⟨Nat.not_lt.1 short, kept.dirs (node?_put_self filled), ih done⟩

/-- Where a way can be gone up to its last name, at most the last directory is made. -/
theorem makeDirs_last {name : Bytes} (passes : d.Passes here names) (plain : Plain name)
    (made : Bool) :
    let place := names.foldl enter here ++ [name]
    let left := (d.makeDirs made here (names ++ [name])).2
    left = d ∨ d.node? place = none ∧ left = d.put place .dir := by
  induction names generalizing here with
  | nil =>
      simp only [List.nil_append, List.foldl_nil, makeDirs, Nat.not_lt.2 plain.length, if_false,
        plain.enter]
      split
      · exact .inl rfl
      · exact .inl rfl
      · next missing => exact .inr ⟨missing, rfl⟩
  | cons first rest ih =>
      obtain ⟨short, dir, others⟩ := passes
      simp only [List.cons_append, makeDirs, Nat.not_lt.2 short, if_false, dir, List.foldl_cons]
      exact ih others

end Ways

section Paths

variable {d d' : Disk} {p : Path}

theorem origin_eq_start {here : Place} (origin : d.origin p = .ok here) : here = d.start p := by
  unfold Disk.origin at origin
  split at origin
  · cases origin
  split at origin
  · cases origin
  · cases origin
    rfl

/-- Where a path starts depends on its length and on whether it is absolute. -/
theorem origin_congr {q : Path}
    (length : (Bytes.ofText p.text).length = (Bytes.ofText q.text).length)
    (absolute : p.isAbsolute = q.isAbsolute) : d.origin p = d.origin q := by
  have empty (s : String) : s.isEmpty = decide ((Bytes.ofText s).length = 0) := by
    rw [Bool.eq_iff_iff, String.isEmpty_iff, decide_eq_true_eq, List.length_eq_zero_iff]
    exact ⟨fun none => none ▸ rfl, fun none => Bytes.ofText_injective (none.trans rfl)⟩
  rw [Disk.origin, Disk.origin, empty, empty, length, absolute]

theorem origin_of_child {here : Place} (filled : p.text.isEmpty = false)
    (origin : d.origin (p.child name) = .ok here) : d.origin p = .ok (d.start p) := by
  unfold Disk.origin at origin ⊢
  split at origin
  · cases origin
  split at origin
  · cases origin
  next short =>
  have le := p.length_text_le_child name
  rw [if_neg (by simp [filled]), if_neg (by omega)]
  rfl

theorem find_of_passes (origin : d.origin p = .ok (d.start p))
    (passes : d.Passes (d.start p) p.components) : d.find p = .ok (d.placeOf p, .dir) := by
  have walked : d.walk (d.start p) p.components = .ok (d.placeOf p, some .dir) := by
    have := walk_of_passes passes []
    rwa [List.append_nil] at this
  simp only [find, locate, origin, walked]

theorem walk_of_isFile (file : d.isFile p = true) :
    ∃ place b, d.origin p = .ok (d.start p) ∧
      d.walk (d.start p) p.components = .ok (place, some (.file b)) := by
  unfold isFile at file
  split at file
  · next place b found =>
    unfold find locate at found
    cases origin : d.origin p with
    | error e => simp [origin] at found
    | ok here =>
        obtain rfl := origin_eq_start origin
        simp only [origin] at found
        split at found
        · cases found
        · cases found
        · cases found
        · next walked => exact ⟨_, _, rfl, walked⟩
  · cases file

theorem within_createDirs {e : Except OsError Unit} (made : d.createDirs p = (e, d'))
    (place : Place) : Within place d d' := by
  unfold createDirs at made
  split at made
  · cases made
    exact .refl place d
  split at made
  · cases made
    exact .refl place d
  · have within := within_makeDirs place d false ‹_› p.components
    rwa [made] at within

theorem passes_createDirs (filled : p.text.isEmpty = false)
    (done : d.createDirs p = (.ok (), d')) :
    d.origin p = .ok (d.start p) ∧ d'.Passes (d.start p) p.components := by
  unfold createDirs at done
  rw [filled] at done
  simp only [Bool.false_eq_true, if_false] at done
  split at done
  · cases done
  · next here origin =>
    obtain rfl := origin_eq_start origin
    exact ⟨origin, passes_makeDirs done⟩

theorem createDirs_of_passes (origin : d.origin p = .ok (d.start p))
    (passes : d.Passes (d.start p) p.components) : d.createDirs p = (.ok (), d) := by
  unfold createDirs
  split
  · rfl
  · rw [origin]
    exact makeDirs_of_passes passes false

variable {name : String} {b : Bytes}

theorem placeOf_child (d : Disk) (p : Path) (plain : Plain (Bytes.ofText name)) :
    d.placeOf (p.child name) = d.placeOf p ++ [Bytes.ofText name] := by
  rw [placeOf, Path.components_child, List.foldl_append, List.foldl_cons, List.foldl_nil,
    plain.enter]
  rfl

theorem walk_child (passes : d.Passes (d.start p) p.components) (plain : Plain (Bytes.ofText name)) :
    d.walk (d.start p) (p.child name).components =
      .ok (d.placeOf (p.child name), d.node? (d.placeOf (p.child name))) := by
  have last : d.walk (d.placeOf p) [Bytes.ofText name] =
      .ok (d.placeOf (p.child name), d.node? (d.placeOf (p.child name))) := by
    rw [placeOf_child d p plain]
    simp only [walk, Nat.not_lt.2 plain.length, if_false, plain.enter, List.isEmpty_nil, if_true]
    split <;> simp [*]
  rw [Path.components_child, walk_of_passes passes]
  exact last

theorem target_child {place : Place} (found : d.target (p.child name) = .ok place) :
    d.origin (p.child name) = .ok (d.start p) ∧ place = d.placeOf (p.child name) ∧
      d.node? place ≠ some .dir := by
  unfold target at found
  split at found
  · cases found
  next here origin =>
  obtain rfl := origin_eq_start origin
  rw [Path.endsInSlash_child] at found
  simp only [Bool.false_eq_true, if_false] at found
  split at found
  · cases found
  · cases found
  next other walked =>
  cases found
  rcases place_of_walk walked with ⟨rfl, rfl⟩ | none
  · exact ⟨origin, rfl, other⟩
  · rw [Path.components_child] at none
    exact absurd none (by simp)

theorem write_child (done : d.write (p.child name) b = (.ok (), d')) :
    d.origin (p.child name) = .ok (d.start p) ∧ d.node? (d.placeOf (p.child name)) ≠ some .dir ∧
      d' = d.put (d.placeOf (p.child name)) (.file b) := by
  unfold write at done
  split at done
  · cases done
  next found =>
  obtain ⟨origin, rfl, other⟩ := target_child found
  cases done
  exact ⟨origin, other, rfl⟩

theorem within_write {place : Place} {e : Except OsError Unit}
    (written : d.write (p.child name) b = (e, d')) (below : place <+: d.placeOf (p.child name)) :
    Within place d d' := by
  unfold write at written
  split at written
  · cases written
    exact .refl place d
  next found =>
  obtain ⟨-, rfl, other⟩ := target_child found
  cases written
  exact .put_file below other b

theorem createDirs_child {e : Except OsError Unit} (passes : d.Passes (d.start p) p.components)
    (plain : Plain (Bytes.ofText name)) (made : d.createDirs (p.child name) = (e, d')) :
    d' = d ∨ d.node? (d.placeOf (p.child name)) = none ∧
      d' = d.put (d.placeOf (p.child name)) .dir := by
  unfold createDirs at made
  split at made
  · cases made
    exact .inl rfl
  split at made
  · cases made
    exact .inl rfl
  · next here origin =>
    obtain rfl := origin_eq_start origin
    have last := makeDirs_last passes plain false
    rw [Path.components_child] at made
    rw [placeOf_child d p plain]
    have start : d.start (p.child name) = d.start p := rfl
    rw [start] at made
    rwa [made] at last

theorem write_eq {e : Except OsError Unit} (written : d.write (p.child name) b = (e, d')) :
    d' = d ∨ d' = d.put (d.placeOf (p.child name)) (.file b) := by
  unfold write at written
  split at written
  · cases written
    exact .inl rfl
  · next found =>
    obtain ⟨-, rfl, -⟩ := target_child found
    cases written
    exact .inr rfl

theorem write_error {e : OsError} (written : d.write p b = (.error e, d')) : d' = d := by
  unfold write at written
  split at written
  · cases written
    rfl
  · cases written

theorem only_write {place : Place} {e : Except OsError Unit}
    (written : d.write (p.child name) b = (e, d')) (below : place <+: d.placeOf (p.child name)) :
    Only place d d' := by
  rcases write_eq written with rfl | rfl
  · exact .refl place d'
  · exact .put below _

theorem find_missing {dir : String} (passes : d.Passes (d.start p) p.components)
    (plainDir : Plain (Bytes.ofText dir)) (plain : Plain (Bytes.ofText name))
    (missing : d.node? (d.placeOf ((p.child dir).child name)) = none) :
    d.find ((p.child dir).child name) =
      match d.origin ((p.child dir).child name), d.node? (d.placeOf (p.child dir)) with
      | .error e, _ => .error e
      | .ok _, some (.file _) => .error .notDirectory
      | .ok _, _ => .error .notFound := by
  unfold find locate
  cases origin : d.origin ((p.child dir).child name) with
  | error e => rfl
  | ok here =>
      obtain rfl := origin_eq_start origin
      have way : d.walk (d.start ((p.child dir).child name)) ((p.child dir).child name).components =
          d.walk (d.placeOf p) [Bytes.ofText dir, Bytes.ofText name] := by
        rw [Path.components_child, Path.components_child, List.append_assoc]
        exact walk_of_passes passes _
      rw [placeOf_child d _ plain, placeOf_child d p plainDir] at missing
      dsimp only
      rw [way, placeOf_child d p plainDir]
      simp only [walk, Nat.not_lt.2 plainDir.length, Nat.not_lt.2 plain.length, if_false,
        plainDir.enter, plain.enter, missing, List.isEmpty_cons, List.isEmpty_nil, if_true,
        Bool.false_eq_true]
      cases d.node? (d.placeOf p ++ [Bytes.ofText dir]) with
      | none => rfl
      | some n => cases n <;> rfl

end Paths

/-- A file stands behind a name in a directory that can be reached. -/
structure Stands (d : Disk) (p : Path) (name : String) (b : Bytes) : Prop where
  origin : d.origin (p.child name) = .ok (d.start p)
  passes : d.Passes (d.start p) p.components
  plain : Plain (Bytes.ofText name)
  node : d.node? (d.placeOf (p.child name)) = some (.file b)

namespace Stands

variable {d : Disk} {p : Path} {name : String} {b : Bytes}

theorem of_isFile (plain : Plain (Bytes.ofText name)) (file : Disk.isFile d (p.child name) = true) :
    ∃ b, d.Stands p name b := by
  obtain ⟨place, b, origin, walked⟩ := walk_of_isFile file
  have passes : d.Passes (d.start p) p.components := by
    rw [Path.components_child] at walked
    exact passes_of_walk walked
  have way := (walk_child passes plain).symm.trans walked
  exact ⟨b, origin, passes, plain, (Prod.mk.inj (Except.ok.inj way)).2⟩

theorem walk (stands : Stands d p name b) :
    d.walk (d.start p) (p.child name).components =
      .ok (d.placeOf (p.child name), some (.file b)) := by
  rw [walk_child stands.passes stands.plain, stands.node]

theorem find (stands : Stands d p name b) :
    d.find (p.child name) = .ok (d.placeOf (p.child name), .file b) := by
  simp only [Disk.find, locate, stands.origin, stands.walk, Path.endsInSlash_child,
    Bool.false_eq_true, if_false]

theorem read (stands : Stands d p name b) : d.read (p.child name) = .ok b := by
  rw [Disk.read, stands.find]

theorem isFile (stands : Stands d p name b) : d.isFile (p.child name) = true := by
  rw [Disk.isFile, stands.find]

/-- Beside a file that stands everything can be told that has a name of the same length: a longer
path could be too long. -/
theorem find_beside {other : String} (stands : Stands d p name b)
    (plain : Plain (Bytes.ofText other))
    (length : (Bytes.ofText other).length = (Bytes.ofText name).length) :
    d.find (p.child other) =
      match d.node? (d.placeOf (p.child other)) with
      | none => .error .notFound
      | some n => .ok (d.placeOf (p.child other), n) := by
  have origin : d.origin (p.child other) = .ok (d.start p) :=
    (origin_congr (Path.length_text_child length) rfl).trans stands.origin
  simp only [Disk.find, locate, origin, walk_child stands.passes plain, Path.endsInSlash_child,
    Bool.false_eq_true, if_false]
  cases d.node? (d.placeOf (p.child other)) with
  | none => rfl
  | some n => cases n <;> rfl

theorem write (stands : Stands d p name b) : d.write (p.child name) b = (.ok (), d) := by
  have filled : d.placeOf (p.child name) ≠ [] := ne_nil_of_node? (d := d) (by simp [stands.node])
  simp only [Disk.write, target, stands.origin, stands.walk, Path.endsInSlash_child,
    Bool.false_eq_true, if_false, put_of_node? filled stands.node]

theorem of_write {d' : Disk} (passes : d.Passes (d.start p) p.components)
    (plain : Plain (Bytes.ofText name)) (done : d.write (p.child name) b = (.ok (), d')) :
    Stands d' p name b := by
  obtain ⟨origin, other, rfl⟩ := write_child done
  have w : Within [] d (d.put (d.placeOf (p.child name)) (.file b)) :=
    .put_file List.nil_prefix other b
  exact ⟨origin, w.passes passes, plain, node?_put_self (ne_nil_of_node? other)⟩

theorem rewrite (stands : Stands d p name b) (other : Bytes) : ∃ d',
    d.write (p.child name) other = (.ok (), d') ∧ Stands d' p name other := by
  refine ⟨d.put (d.placeOf (p.child name)) (.file other), ?_, ?_⟩
  · simp only [Disk.write, target, stands.origin, stands.walk, Path.endsInSlash_child,
      Bool.false_eq_true, if_false]
  · have node : d.node? (d.placeOf (p.child name)) ≠ some .dir := by simp [stands.node]
    have w : Within [] d (d.put (d.placeOf (p.child name)) (.file other)) :=
      .put_file List.nil_prefix node other
    exact ⟨stands.origin, w.passes stands.passes, stands.plain,
      node?_put_self (ne_nil_of_node? node)⟩

theorem put_dir {q : Place} (stands : Stands d p name b) (missing : d.node? q = none) :
    Stands (d.put q .dir) p name b where
  origin := stands.origin
  passes := (.put_dir missing : Within [] d (d.put q .dir)).passes stands.passes
  plain := stands.plain
  node := by
    have ne : d.placeOf (p.child name) ≠ q := by
      rintro rfl
      exact nomatch missing.symm.trans stands.node
    exact (node?_put_of_ne ne).trans stands.node

theorem within {place : Place} {d' : Disk} (stands : Stands d p name b) (w : Within place d d')
    (outside : ¬ place <+: d.placeOf (p.child name)) : Stands d' p name b where
  origin := by rw [w.origin, w.start, stands.origin]
  passes := by
    rw [w.start]
    exact w.passes stands.passes
  plain := stands.plain
  node := by
    rw [w.placeOf]
    exact (w.files outside b).2 stands.node

end Stands

end Disk

end ContractHost
