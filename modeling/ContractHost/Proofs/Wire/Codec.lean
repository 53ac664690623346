import ContractHost.Proofs.Json.Writer
import ContractHost.Proofs.Msgpack.Tree
import ContractHost.Proofs.Table
import ContractHost.Wire.Codec

/-!
Types whose values are read back from what is written for them.

A type is lawful when its documents fit its shape and stand for the values that they
were made from; then both formats give the value back, since they give the document
back. The laws of options and lists follow from those of what they hold, so that a
record only has to name the laws of its fields.
-/

namespace ContractHost

theorem TextSet.ofList_keys (s : TextSet) : TextSet.ofList s.keys = s := by
  have entries : s.keys.map (fun k => (k, ())) = s.entries := by
    simp [Table.keys, Function.comp_def]
  rw [TextSet.ofList, entries, Table.ofList_entries]

namespace Wire

/-- What a type has to keep so that its values are read back from what is written for them. -/
class Lawful (α : Type) [Wire α] : Prop where
  /-- The documents of the type fit its shape. -/
  admits (a : α) : (shape α).Admits (toDoc a)
  /-- A document stands for the value that it was made from. -/
  ofDoc?_toDoc (a : α) : ofDoc? (toDoc a) = some a
  /-- No value is written as null, so that an absent one can be. -/
  filled (a : α) : toDoc a ≠ .null := by nofun
  /-- Containers are nested no deeper than is read. -/
  shallow : (shape α).depth ≤ Msgpack.maxDepth := by decide

export Lawful (admits ofDoc?_toDoc filled shallow)

attribute [simp] ofDoc?_toDoc

section Parts

variable {α : Type} [Wire α] [Lawful α]

theorem admits_option (a : Option α) : (Shape.option (shape α)).Admits (optionToDoc a) := by
  cases a with
  | none => trivial
  | some a =>
      have admitted := admits a
      have present := filled a
      show (Shape.option (shape α)).Admits (toDoc a)
      generalize toDoc a = d at admitted present ⊢
      cases d with
      | null => exact absurd rfl present
      | _ => exact admitted

theorem admits_list (l : List α) : (Shape.list (shape α)).Admits (listToDoc l) := by
  intro d mem
  obtain ⟨a, -, rfl⟩ := List.mem_map.1 mem
  exact admits a

@[simp] theorem optionOfDoc?_optionToDoc (a : Option α) :
    optionOfDoc? (optionToDoc a) = some a := by
  cases a with
  | none => rfl
  | some a =>
      have read := ofDoc?_toDoc a
      have present := filled a
      show optionOfDoc? (toDoc a) = some (some a)
      generalize toDoc a = d at read present ⊢
      cases d with
      | null => exact absurd rfl present
      | _ => simp [optionOfDoc?, read]

@[simp] theorem listOfDoc?_listToDoc (l : List α) : listOfDoc? (listToDoc l) = some l :=
  mapM_map_of_inverse fun a _ => ofDoc?_toDoc a

end Parts

instance : Lawful Bool where
  admits _ := trivial
  ofDoc?_toDoc _ := rfl

instance : Lawful String where
  admits _ := trivial
  ofDoc?_toDoc _ := rfl

instance : Lawful Bytes where
  admits _ := trivial
  ofDoc?_toDoc _ := rfl

instance : Lawful UInt32 where
  admits n := by
    have bound := n.toNat_lt
    refine ⟨?_, ?_, ?_⟩ <;> omega
  ofDoc?_toDoc n := congrArg some n.ofNat_toNat

instance : Lawful UInt64 where
  admits n := by
    have bound := n.toNat_lt
    refine ⟨?_, ?_, ?_⟩ <;> omega
  ofDoc?_toDoc n := congrArg some n.ofNat_toNat

instance : Lawful TextSet where
  admits s := by
    intro d mem
    obtain ⟨k, -, rfl⟩ := List.mem_map.1 mem
    trivial
  ofDoc?_toDoc s := by
    have read : (s.keys.map Doc.text).mapM (ofDoc? (α := String)) = some s.keys :=
      mapM_map_of_inverse fun _ _ => rfl
    show ((s.keys.map Doc.text).mapM (ofDoc? (α := String))).map TextSet.ofList = some s
    rw [read, Option.map_some, TextSet.ofList_keys]

section RoundTrip

variable {α : Type} [Wire α] [Lawful α]

/-- A short value is read back from its MessagePack form, whatever stands behind it. -/
theorem ofMsgpack?_toMsgpack {a : α} (short : (toDoc a).Short) (t : Bytes) :
    ofMsgpack? (toMsgpack a ++ t) = some a := by
  have deep : (toDoc a).depth ≤ Msgpack.maxDepth :=
    (Shape.depth_le_of_admits (admits a)).trans shallow
  have fits : ∀ e ∈ (toDoc a).parts, Msgpack.Fits e := fun e mem =>
    ⟨short e mem, Shape.words_of_admits (admits a) e mem⟩
  have read : Msgpack.Tree.read (toMsgpack a ++ t) = some (Msgpack.treeOf (toDoc a), t) :=
    Msgpack.readTree_write fits deep t
  rw [ofMsgpack?, read]
  simp only [Shape.read_tree Msgpack.renders (admits a), Option.bind_some, ofDoc?_toDoc]

/-- A value is read back from its JSON text in every layout that only puts blanks. -/
theorem ofJson?_toJson {l : Json.Layout} (blank : l.Blank) (a : α) :
    ofJson? (toJson l a) = some a := by
  rw [ofJson?, toJson, Json.parse_write blank]
  simp only [Shape.read_tree Json.renders (admits a), Option.bind_some, ofDoc?_toDoc]

/-- What is promised about the written forms of a type. -/
structure RoundTrips (α : Type) [Wire α] : Prop where
  /-- A short value is read back from its MessagePack form, whatever stands behind it. -/
  msgpack {v : α} : (toDoc v).Short → ∀ t, ofMsgpack? (toMsgpack v ++ t) = some v
  /-- A value is read back from its JSON text in every layout that only puts blanks. -/
  json {l : Json.Layout} : l.Blank → ∀ v : α, ofJson? (toJson l v) = some v
  /-- Of two short values neither has a MessagePack form that starts the form of the other. -/
  msgpack_ne {v w : α} : (toDoc v).Short → (toDoc w).Short → v ≠ w →
    ∀ t, toMsgpack v ++ t ≠ toMsgpack w
  /-- Two values never have the same JSON text. -/
  json_ne {l m : Json.Layout} : l.Blank → m.Blank → ∀ v w : α, v ≠ w → toJson l v ≠ toJson m w

theorem roundTrips (α : Type) [Wire α] [Lawful α] : RoundTrips α where
  msgpack := ofMsgpack?_toMsgpack
  json := ofJson?_toJson
  msgpack_ne hv hw ne t same := by
    have read := ofMsgpack?_toMsgpack hv t
    rw [same, ← List.append_nil (toMsgpack _), ofMsgpack?_toMsgpack hw] at read
    exact ne (Option.some.inj read).symm
  json_ne hl hm v w ne same := by
    have read := ofJson?_toJson hl v
    rw [same, ofJson?_toJson hm] at read
    exact ne (Option.some.inj read).symm

end RoundTrip

end Wire

end ContractHost
