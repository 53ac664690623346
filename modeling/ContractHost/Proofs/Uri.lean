import ContractHost.Proofs.Checksum
import ContractHost.Proofs.Resolver
import Mathlib.Data.List.Basic

/-!
Reading a locator and writing it are inverse (`Uri.reading_inverts_writing`).

The first slash behind the scheme is the only place where a text can be cut into an
authority, which has no slash, and a path, which may have some (`Uri.cut_iff`). So the
text of a locator is read as the locator of its parts, if there is one
(`Uri.parse_text`), and everything about reading follows from what may be a part.
-/

namespace ContractHost

namespace Uri

/-- What may be the parts of a locator. -/
structure Parts (authority path : String) : Prop where
  named : authority ≠ ""
  slashless : '/' ∉ authority.toList
  filled : path ≠ ""

/-- The locators that can be had: from their parts, from a checksum, from the name of a unit of the
host, and from a text. -/
inductive Built : Uri → Prop
  | new {authority path : String} {u : Uri} (made : Uri.new authority path = .ok u) : Built u
  | store (c : Checksum) : Built (Uri.store c)
  | host (name : String) : Built (Uri.host name)
  | read {text : String} {u : Uri} (read : Uri.parse text = .ok u) : Built u

variable {authority path text : String} {u v : Uri}

theorem new_eq_ok_iff :
    new authority path = .ok u ↔ Parts authority path ∧ u = ⟨authority, path⟩ := by
  rw [new, ofParts, String.ofList_toList, String.ofList_toList]
  constructor
  · intro made
    split at made
    · cases made
    next usable =>
    obtain ⟨named, slashless⟩ := not_or.1 usable
    split at made
    · cases made
    next filled =>
    cases made
    exact ⟨⟨fun none => named (String.toList_eq_nil_iff.2 none), slashless,
      fun none => filled (String.toList_eq_nil_iff.2 none)⟩, rfl⟩
  · rintro ⟨parts, rfl⟩
    have usable : ¬ (authority.toList = [] ∨ '/' ∈ authority.toList) := by
      simp [parts.named, parts.slashless]
    rw [if_neg usable, if_neg (by simp [parts.filled])]

/-- The first slash is the only place where characters can be cut into some without a slash, a slash
and the rest. -/
theorem cut_iff {cs front back : List Char} :
    cs.takeWhile (· != '/') = front ∧ cs.dropWhile (· != '/') = '/' :: back ↔
      '/' ∉ front ∧ cs = front ++ '/' :: back := by
  constructor
  · rintro ⟨rfl, rest⟩
    constructor
    · intro mem
      exact absurd (List.all_eq_true.1 List.all_takeWhile _ mem) (by decide)
    · rw [← rest, List.takeWhile_append_dropWhile]
  · rintro ⟨slashless, rfl⟩
    have others : ∀ x ∈ front, (x != '/') = true := by
      intro x mem
      rw [bne_iff_ne]
      rintro rfl
      exact slashless mem
    rw [List.takeWhile_append_of_pos others, List.dropWhile_append_of_pos others]
    simp

theorem toList_text (u : Uri) :
    u.text.toList = scheme.toList ++ (u.authority.toList ++ '/' :: u.path.toList) := by
  simp [Uri.text]

theorem parse_text (slashless : '/' ∉ u.authority.toList) :
    parse u.text = new u.authority u.path := by
  have rest : scheme.toList.isPrefixOf? u.text.toList =
      some (u.authority.toList ++ '/' :: u.path.toList) :=
    List.isPrefixOf?_eq_some_iff_append_eq.2 (toList_text u).symm
  obtain ⟨front, back⟩ :=
    cut_iff.2 ⟨slashless, Eq.refl (u.authority.toList ++ '/' :: u.path.toList)⟩
  simp only [parse, rest, front, back, new]

theorem exists_text_of_parse (read : parse text = .ok u) :
    ∃ v : Uri, '/' ∉ v.authority.toList ∧ v.text = text ∧ new v.authority v.path = .ok u := by
  rw [parse] at read
  split at read
  · cases read
  next rest begun =>
  split at read
  · cases read
  next c path behind =>
  obtain rfl : c = '/' := by
    have stop := List.head?_dropWhile_not (· != '/') rest
    rw [behind] at stop
    simpa using stop
  obtain ⟨slashless, cut⟩ := cut_iff.1 ⟨rfl, behind⟩
  refine ⟨⟨String.ofList (rest.takeWhile (· != '/')), String.ofList path⟩, ?_, ?_, ?_⟩
  · rwa [String.toList_ofList]
  · rw [← String.toList_inj, toList_text, String.toList_ofList, String.toList_ofList, ← cut]
    exact List.isPrefixOf?_eq_some_iff_append_eq.1 begun
  · rwa [new, String.toList_ofList, String.toList_ofList]

/-- Exactly the texts of locators with proper parts are read. -/
theorem parse_eq_ok_iff : parse text = .ok u ↔ Parts u.authority u.path ∧ u.text = text := by
  constructor
  · intro read
    obtain ⟨v, -, rfl, made⟩ := exists_text_of_parse read
    obtain ⟨parts, rfl⟩ := new_eq_ok_iff.1 made
    exact ⟨parts, rfl⟩
  · rintro ⟨parts, rfl⟩
    rw [parse_text parts.slashless]
    exact new_eq_ok_iff.2 ⟨parts, rfl⟩

/-- No locator has a slash in its authority, be its path empty or not. -/
theorem Built.slashless (built : Built u) : '/' ∉ u.authority.toList := by
  cases built with
  | new made =>
      obtain ⟨parts, rfl⟩ := new_eq_ok_iff.1 made
      exact parts.slashless
  | store c => exact (by decide : '/' ∉ storeAuthority.toList)
  | host name => exact (by decide : '/' ∉ hostAuthority.toList)
  | read read => exact (parse_eq_ok_iff.1 read).1.slashless

theorem Built.eq_of_text_eq (built : Built u) (built' : Built v) (same : u.text = v.text) :
    u = v := by
  have chars := congrArg String.toList same
  rw [toList_text, toList_text] at chars
  have rest := List.append_cancel_left chars
  obtain ⟨front, back⟩ := cut_iff.2 ⟨built.slashless, rest.symm⟩
  obtain ⟨front', back'⟩ :=
    cut_iff.2 ⟨built'.slashless, Eq.refl (v.authority.toList ++ '/' :: v.path.toList)⟩
  have authority := String.toList_inj.1 (front.symm.trans front')
  have path := String.toList_inj.1 (List.cons.inj (back.symm.trans back')).2
  cases u
  cases v
  cases authority
  cases path
  rfl

theorem parts_store (c : Checksum) : Parts storeAuthority c.toHex := by
  refine ⟨by decide, by decide, fun none => ?_⟩
  have length := Hex.length_ofText_encode c.digest
  rw [← Checksum.toHex, none, c.size] at length
  cases length

theorem parts_host_iff {name : String} : Parts hostAuthority name ↔ name ≠ "" :=
  ⟨fun parts => parts.filled, fun filled => ⟨by decide, by decide, filled⟩⟩

/-- Reading a locator and writing it are inverse. A text is read exactly if it is the scheme, an
authority, a slash and a path, and it is written back; parts are taken exactly if they can stand so,
and the locator that they make is read from its text. Locators have different texts. That of a code
is read back from its text, and its path is read as the checksum of the code; that of a unit of the
host is read back exactly if the unit has a name. -/
theorem reading_inverts_writing :
    (∀ text u, parse text = .ok u ↔ ∃ authority path,
      text = "wrap://" ++ authority ++ "/" ++ path ∧ Parts authority path ∧ u = ⟨authority, path⟩) ∧
    (∀ text u, parse text = .ok u → u.text = text) ∧
    (∀ authority path u, new authority path = .ok u ↔
      Parts authority path ∧ u = ⟨authority, path⟩) ∧
    (∀ authority path u, new authority path = .ok u → parse u.text = .ok u) ∧
    (∀ u v, Built u → Built v → u.text = v.text → u = v) ∧
    (∀ c, parse (store c).text = .ok (store c) ∧ (store c).Names c) ∧
    ∀ name, parse (host name).text = .ok (host name) ↔ name ≠ "" := by
  refine ⟨fun text u => ?_, fun _ _ read => (parse_eq_ok_iff.1 read).2, fun _ _ _ => new_eq_ok_iff,
    fun _ _ u made => ?_, fun _ _ => Built.eq_of_text_eq,
    fun c => ⟨?_, rfl, Checksum.parse_toHex c⟩,
    fun name => ?_⟩
  · rw [parse_eq_ok_iff]
    constructor
    · rintro ⟨parts, rfl⟩
      exact ⟨u.authority, u.path, rfl, parts, rfl⟩
    · rintro ⟨authority, path, rfl, parts, rfl⟩
      exact ⟨parts, rfl⟩
  · obtain ⟨parts, rfl⟩ := new_eq_ok_iff.1 made
    exact parse_eq_ok_iff.2 ⟨parts, rfl⟩
  · exact parse_eq_ok_iff.2 ⟨parts_store c, rfl⟩
  · rw [parse_eq_ok_iff]
    exact ⟨fun read => parts_host_iff.1 read.1, fun filled => ⟨parts_host_iff.2 filled, rfl⟩⟩

/-- The path goes on behind its first slash, whatever stands there. -/
example : parse "wrap://fs/wrap://a/b:c" = .ok ⟨"fs", "wrap://a/b:c"⟩ := by decide

end Uri

end ContractHost
