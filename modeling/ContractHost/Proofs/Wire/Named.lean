import ContractHost.Guest.Request
import ContractHost.Proofs.Bridge.Refinement
import ContractHost.Proofs.Msgpack.Record
import ContractHost.Proofs.Wire.Records
import ContractHost.Vm.Call

/-!
Records are read by the names of their fields (`records_read_by_name`).

What a guest answers and what it is told is read the same in whatever order the fields come,
whether or not a default is spelled out, and whatever else the map holds. Only that a field is
named twice is an error, and whoever reads such a map fails with it.
-/

namespace ContractHost

open Msgpack (Tree)

theorem Guest.decode_of_unread {α : Type} [Wire α] {b : Bytes}
    (none : Wire.ofMsgpack? (α := α) b = none) (next : α → Program) :
    decode b next = .fail .malformed := by
  simp only [decode, none]

namespace Wire

theorem distinct_of_record (r : RecordType) : (shape r.Value).distinct = true := by
  cases r <;> decide

section Named

variable {α : Type} [Wire α] {t : Tree} {b : Bytes}

/-- A value is read from any map that names its fields, whatever stands behind it. -/
theorem ofMsgpack?_of_takes [Lawful α] {a : α} (takes : (shape α).Takes (toDoc a) t)
    (spelled : t.Spelled b) (shallow : t.depth < 1024) (rest : Bytes) :
    ofMsgpack? (b ++ rest) = some a := by
  have read : Tree.read (b ++ rest) = some (t, rest) :=
    Tree.read_append spelled (Nat.le_of_lt_succ shallow) rest
  rw [ofMsgpack?, read]
  simp only [Shape.read_of_takes (admits a) takes, Option.bind_some, ofDoc?_toDoc]

/-- Nothing is read from a map that names a field twice, however deep its values are nested. -/
theorem ofMsgpack?_of_repeats (distinct : (shape α).distinct) (repeats : (shape α).Repeats t)
    (spelled : t.Spelled b) (rest : Bytes) : ofMsgpack? (α := α) (b ++ rest) = none := by
  rw [ofMsgpack?]
  split
  · rfl
  · next u after read =>
    rw [Tree.eq_of_read_append spelled read, Shape.read_of_repeats distinct repeats,
      Option.bind_none]

/-- What is promised about the maps that stand for the values of a type. -/
structure ReadByName (α : Type) [Wire α] : Prop where
  /-- A value is read from any map that names its fields, whatever stands behind it. -/
  reads {a : α} {t : Tree} {b : Bytes} : (shape α).Takes (toDoc a) t → t.Spelled b →
    t.depth < 1024 → ∀ rest, ofMsgpack? (b ++ rest) = some a
  /-- A map in which a field is named twice is malformed, also for a unit that decodes it. -/
  rejects {t : Tree} {b : Bytes} : (shape α).Repeats t → t.Spelled b → ∀ rest,
    ofMsgpack? (α := α) (b ++ rest) = none ∧ ∀ next : α → Program, ∃ reason,
      Guest.decode (b ++ rest) next = .fail (.serialization reason)

theorem readByName [Lawful α] (distinct : (shape α).distinct) : ReadByName α where
  reads := ofMsgpack?_of_takes
  rejects repeats spelled rest := by
    have none := ofMsgpack?_of_repeats distinct repeats spelled rest
    exact ⟨none, fun next => ⟨_, Guest.decode_of_unread none next⟩⟩

end Named

end Wire

section Rejected

variable {b : Bytes}

theorem Vm.conclude_of_unread {rate : Gas.Rate} {w : World}
    (none : Wire.ofMsgpack? (α := Response) b = none)
    (paid : (w.charge .call (rate.mulFloor (UInt64.ofNat b.length))).1 = .ok ()) (g : GuardId) :
    (conclude rate g b w).1 = .error (.ofInvoke .malformed) := by
  rw [conclude]
  generalize w.charge .call (rate.mulFloor (UInt64.ofNat b.length)) = charged at paid ⊢
  obtain ⟨_, after⟩ := charged
  obtain rfl := paid
  simp only [none]

theorem Bridge.dispatch_of_unread {w : World} {invoker : Option TankRef}
    (none : Wire.ofMsgpack? (α := WriteArgs) b = none) (bound : (w.boundTo invoker).isSome)
    (costs : Gas.Costs) : dispatch costs invoker .write b w = (.error .malformed, w) := by
  obtain ⟨_, binding⟩ := Option.isSome_iff_exists.1 bound
  simp only [dispatch, binding, Request.decode?, none, Option.map_none]

end Rejected

/-- Every record is read by the names of its fields. A map that names a field twice is an error of
serialization: for a unit that decodes it, for the host that reads it as a response, and for the
bridge that reads it as the arguments of a write. -/
theorem records_read_by_name :
    (∀ r : RecordType, Wire.ReadByName r.Value) ∧
    (∀ {t : Tree} {b : Bytes}, (Wire.shape Response).Repeats t → t.Spelled b →
      ∀ (rest : Bytes) (rate : Gas.Rate) (g : GuardId) (w : World),
        (w.charge .call (rate.mulFloor (UInt64.ofNat (b ++ rest).length))).1 = .ok () →
          ∃ reason, (Vm.conclude rate g (b ++ rest) w).1 = .error (.serialization reason)) ∧
    ∀ {t : Tree} {b : Bytes}, (Wire.shape WriteArgs).Repeats t → t.Spelled b →
      ∀ (rest : Bytes) (costs : Gas.Costs) (invoker : Option TankRef) (w : World),
        (w.boundTo invoker).isSome → ∃ reason, Bridge.dispatch costs invoker .write (b ++ rest) w =
          (.error (.serialization reason), w) := by
  refine ⟨fun r => Wire.readByName (Wire.distinct_of_record r), ?_, ?_⟩
  · intro t b repeats spelled rest rate g w paid
    have distinct := Wire.distinct_of_record .response
    have none := Wire.ofMsgpack?_of_repeats distinct repeats spelled rest
    exact ⟨_, Vm.conclude_of_unread none paid g⟩
  · intro t b repeats spelled rest costs invoker w bound
    have distinct := Wire.distinct_of_record .writeArgs
    have none := Wire.ofMsgpack?_of_repeats distinct repeats spelled rest
    exact ⟨_, Bridge.dispatch_of_unread none bound costs⟩

namespace Sample

def key (name : String) : Tree := .str (Bytes.ofText name)

/-- A response with one message. Each of the two maps has an entry that is no field. The gas limit
of the message is left out, and its number comes last. -/
def mixed : Tree :=
  .map [(key "later", .array [.nil, .map [(.uint 1, .single 0x3FC00000)]]),
    (key "messages", .array [.map [(key "note", .bool true), (key "msg", .bin [1, 2]),
      (key "id", .uint 7)]])]

def mixedBytes : Bytes :=
  [0x82, 0xA5, 0x6C, 0x61, 0x74, 0x65, 0x72, 0x92, 0xC0, 0x81, 0x01, 0xCA, 0x3F, 0xC0, 0x00, 0x00,
    0xA8, 0x6D, 0x65, 0x73, 0x73, 0x61, 0x67, 0x65, 0x73, 0x91, 0x83,
    0xA4, 0x6E, 0x6F, 0x74, 0x65, 0xC3, 0xA3, 0x6D, 0x73, 0x67, 0xC4, 0x02, 0x01, 0x02,
    0xA2, 0x69, 0x64, 0xCF, 0x00, 0x00, 0x00, 0x00, 0x00, 0x00, 0x00, 0x07]

def twoNumbers : Tree :=
  .map [(key "messages", .array [.map [(key "id", .uint 1), (key "id", .uint 2)]])]

def twoNumbersBytes : Bytes :=
  [0x81, 0xA8, 0x6D, 0x65, 0x73, 0x73, 0x61, 0x67, 0x65, 0x73, 0x91, 0x82,
    0xA2, 0x69, 0x64, 0x01, 0xA2, 0x69, 0x64, 0x02]

def twoKeys : Tree := .map [(key "key", .bin [1]), (key "key", .bin [2])]

def twoKeysBytes : Bytes :=
  [0x82, 0xA3, 0x6B, 0x65, 0x79, 0xC4, 0x01, 0x01, 0xA3, 0x6B, 0x65, 0x79, 0xC4, 0x01, 0x02]

theorem mixed_takes :
    (Wire.shape Response).Takes (Wire.toDoc (Response.mk none [] [⟨7, [1, 2], none⟩] []))
      mixed := by
  have message : (Wire.shape SubMsg).Takes (Wire.toDoc (SubMsg.mk 7 [1, 2] none))
      (.map [(key "note", .bool true), (key "msg", .bin [1, 2]), (key "id", .uint 7)]) := by
    refine ⟨_, [(key "id", .uint 7), (key "msg", .bin [1, 2])], [(key "note", .bool true)], rfl,
      (List.Perm.swap _ _ _).cons _ |>.trans (List.perm_append_singleton _ _).symm, ?_,
      List.forall_mem_singleton.2 ⟨_, rfl, by decide⟩⟩
    have id : (Wire.shape UInt64).Takes (Wire.toDoc (7 : UInt64)) (.uint 7) := ⟨7, rfl, .inl rfl⟩
    have msg : Shape.bytes.Takes (.bytes [1, 2]) (.bin [1, 2]) := .inl rfl
    exact ⟨rfl, .inr ⟨_, _, rfl, id, rfl, .inr ⟨_, _, rfl, msg, rfl, .inl ⟨rfl, rfl⟩⟩⟩⟩
  refine ⟨_, [(key "messages", .array _)], [(key "later", _)], rfl, .swap _ _ _, ?_,
    List.forall_mem_singleton.2 ⟨_, rfl, by decide⟩⟩
  refine ⟨rfl, .inl ⟨rfl, rfl, .inl ⟨rfl, rfl, .inr ⟨_, _, rfl, ?_, rfl, .inl ⟨rfl, rfl⟩⟩⟩⟩⟩
  exact ⟨_, rfl, .cons message .nil⟩

theorem twoNumbers_repeats : (Wire.shape Response).Repeats twoNumbers := by
  have message : (Wire.shape SubMsg).Repeats (.map [(key "id", .uint 1), (key "id", .uint 2)]) :=
    ⟨_, rfl, .inl ⟨"id", List.mem_cons_self, by decide⟩⟩
  refine ⟨_, rfl, .inr (.inr (.inr (.inl ⟨_, ?_, _, rfl, _, List.mem_singleton_self _, message⟩)))⟩
  exact List.mem_singleton_self _

theorem twoKeys_repeats : (Wire.shape WriteArgs).Repeats twoKeys :=
  ⟨_, rfl, .inl ⟨"key", List.mem_cons_self, by decide⟩⟩

end Sample

set_option maxRecDepth 10000 in
theorem records_read_by_name_mixed :
    Wire.ofMsgpack? Sample.mixedBytes = some (Response.mk none [] [⟨7, [1, 2], none⟩] []) ∧
    (∃ reason, (Vm.conclude ⟨0, 1⟩ 0 Sample.twoNumbersBytes Sample.bound).1 =
      .error (.serialization reason)) ∧
    ∃ reason, Bridge.dispatch ⟨5, 1⟩ (some .call) .write Sample.twoKeysBytes Sample.bound =
      (.error (.serialization reason), Sample.bound) := by
  obtain ⟨byName, host, bridge⟩ := records_read_by_name
  refine ⟨?_, ?_, ?_⟩
  · obtain ⟨spelled, -⟩ := Tree.spelled_of_whole
      (rfl : Msgpack.readTree 3 Sample.mixedBytes = some (Sample.mixed, []))
    exact (byName .response).reads Sample.mixed_takes spelled (by decide) []
  · obtain ⟨spelled, -⟩ := Tree.spelled_of_whole
      (rfl : Msgpack.readTree 3 Sample.twoNumbersBytes = some (Sample.twoNumbers, []))
    exact host Sample.twoNumbers_repeats spelled [] ⟨0, 1⟩ 0 Sample.bound rfl
  · obtain ⟨spelled, -⟩ := Tree.spelled_of_whole
      (rfl : Msgpack.readTree 3 Sample.twoKeysBytes = some (Sample.twoKeys, []))
    exact bridge Sample.twoKeys_repeats spelled [] ⟨5, 1⟩ (some .call) Sample.bound rfl

end ContractHost
