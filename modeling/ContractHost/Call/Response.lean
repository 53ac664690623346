import ContractHost.Wire.Codec

/-!
What a contract answers when a call succeeds: data, attributes, messages to be sent on, and events.
Every part may be left out in the written form.
-/

namespace ContractHost

structure Attribute where
  key : String
  value : String
  deriving DecidableEq, Repr

/-- A message to be sent on after the call; what it says is not looked at. -/
structure SubMsg where
  id : UInt64
  msg : Bytes
  gasLimit : Option UInt64
  deriving DecidableEq, Repr

structure Event where
  type : String
  attributes : List Attribute
  deriving DecidableEq, Repr

structure Response where
  data : Option Bytes
  attributes : List Attribute
  messages : List SubMsg
  events : List Event
  deriving DecidableEq, Repr

def Response.blank : Response := ⟨none, [], [], []⟩

def Response.withData (data : Bytes) : Response := { Response.blank with data := some data }

instance : Wire Attribute where
  shape := .record (.cons "key" .text none (.cons "value" .text none .nil))
  toDoc a := .map [("key", Wire.toDoc a.key), ("value", Wire.toDoc a.value)]
  ofDoc?
    | .map [(_, key), (_, value)] => do return ⟨← Wire.ofDoc? key, ← Wire.ofDoc? value⟩
    | _ => none

instance : Wire SubMsg where
  shape := .record <|
    .cons "id" (Wire.shape UInt64) none <| .cons "msg" .bytes none <|
    .cons "gas_limit" (.option (Wire.shape UInt64)) (some .null) .nil
  toDoc m := .map [("id", Wire.toDoc m.id), ("msg", Wire.toDoc m.msg),
    ("gas_limit", Wire.optionToDoc m.gasLimit)]
  ofDoc?
    | .map [(_, id), (_, msg), (_, gasLimit)] => do
      return ⟨← Wire.ofDoc? id, ← Wire.ofDoc? msg, ← Wire.optionOfDoc? gasLimit⟩
    | _ => none

instance : Wire Event where
  shape := .record <|
    .cons "type" .text none <|
    .cons "attributes" (.list (Wire.shape Attribute)) (some (.list [])) .nil
  toDoc e := .map [("type", Wire.toDoc e.type), ("attributes", Wire.listToDoc e.attributes)]
  ofDoc?
    | .map [(_, type), (_, attributes)] => do
      return ⟨← Wire.ofDoc? type, ← Wire.listOfDoc? attributes⟩
    | _ => none

instance : Wire Response where
  shape := .record <|
    .cons "data" (.option .bytes) (some .null) <|
    .cons "attributes" (.list (Wire.shape Attribute)) (some (.list [])) <|
    .cons "messages" (.list (Wire.shape SubMsg)) (some (.list [])) <|
    .cons "events" (.list (Wire.shape Event)) (some (.list [])) .nil
  toDoc r := .map [("data", Wire.optionToDoc r.data), ("attributes", Wire.listToDoc r.attributes),
    ("messages", Wire.listToDoc r.messages), ("events", Wire.listToDoc r.events)]
  ofDoc?
    | .map [(_, data), (_, attributes), (_, messages), (_, events)] => do
      return ⟨← Wire.optionOfDoc? data, ← Wire.listOfDoc? attributes,
        ← Wire.listOfDoc? messages, ← Wire.listOfDoc? events⟩
    | _ => none

end ContractHost
