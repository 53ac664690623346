import ContractHost.Bridge.Request
import ContractHost.Call.Environment
import ContractHost.Call.Response
import ContractHost.CodeStore.Manifest
import ContractHost.Gas.Price
import ContractHost.Proofs.Checksum
import ContractHost.Proofs.Wire.Codec

/-!
Every record that crosses a boundary of the host is read back from both of its
written forms (`records_round_trip`): the arguments of requests, what a contract is
told and what it answers, rates, and what is stored beside a code.
-/

namespace ContractHost

namespace Wire

instance : Lawful KeyArgs where
  admits a := ⟨by decide, rfl, admits a.key, trivial⟩
  ofDoc?_toDoc a := by simp [toDoc, ofDoc?]

instance : Lawful KeyValueArgs where
  admits a := ⟨by decide, rfl, admits a.key, rfl, admits a.value, trivial⟩
  ofDoc?_toDoc a := by simp [toDoc, ofDoc?]

instance : Lawful WriteArgs where
  admits a := ⟨by decide, rfl, admits a.key, rfl, admits_option a.value, trivial⟩
  ofDoc?_toDoc a := by simp [toDoc, ofDoc?]

instance : Lawful Attribute where
  admits a := ⟨by decide, rfl, admits a.key, rfl, admits a.value, trivial⟩
  ofDoc?_toDoc a := by simp [toDoc, ofDoc?]

instance : Lawful SubMsg where
  admits m := ⟨by decide, rfl, admits m.id, rfl, admits m.msg,
    rfl, admits_option m.gasLimit, trivial⟩
  ofDoc?_toDoc m := by simp [toDoc, ofDoc?]

instance : Lawful Event where
  admits e := ⟨by decide, rfl, admits e.type, rfl, admits_list e.attributes, trivial⟩
  ofDoc?_toDoc e := by simp [toDoc, ofDoc?]

instance : Lawful Response where
  admits r := ⟨by decide, rfl, admits_option r.data, rfl, admits_list r.attributes,
    rfl, admits_list r.messages, rfl, admits_list r.events, trivial⟩
  ofDoc?_toDoc r := by simp [toDoc, ofDoc?]

instance : Lawful BlockInfo where
  admits b := ⟨by decide, rfl, admits b.height, rfl, admits b.time, rfl, admits b.chainId, trivial⟩
  ofDoc?_toDoc b := by simp [toDoc, ofDoc?]

instance : Lawful ContractInfo where
  admits c := ⟨by decide, rfl, admits c.address, trivial⟩
  ofDoc?_toDoc c := by simp [toDoc, ofDoc?]

instance : Lawful TransactionInfo where
  admits t := ⟨by decide, rfl, admits t.index, trivial⟩
  ofDoc?_toDoc t := by simp [toDoc, ofDoc?]

instance : Lawful Env where
  admits e := ⟨by decide, rfl, admits e.block, rfl, admits e.contract,
    rfl, admits_option e.transaction, trivial⟩
  ofDoc?_toDoc e := by simp [toDoc, ofDoc?]

instance : Lawful Coin where
  admits c := ⟨by decide, rfl, admits c.denom, rfl, admits c.amount, trivial⟩
  ofDoc?_toDoc c := by simp [toDoc, ofDoc?]

instance : Lawful MessageInfo where
  admits m := ⟨by decide, rfl, admits m.sender, rfl, admits_list m.funds, trivial⟩
  ofDoc?_toDoc m := by simp [toDoc, ofDoc?]

instance : Lawful CallEnv where
  admits c := ⟨by decide, rfl, admits c.env, rfl, admits c.info, trivial⟩
  ofDoc?_toDoc c := by simp [toDoc, ofDoc?]

instance : Lawful Gas.Rate where
  admits r := ⟨by decide, rfl, admits r.numerator, rfl, admits r.denominator, trivial⟩
  ofDoc?_toDoc r := by simp [toDoc, ofDoc?]

instance : Lawful Checksum where
  admits _ := trivial
  ofDoc?_toDoc c := by simp [toDoc, ofDoc?, Checksum.parse_toHex, Except.toOption]

instance : Lawful CapabilityReport where
  admits r := ⟨by decide, rfl, admits r.hasIbcEntryPoints, rfl, admits r.requiredCapabilities, rfl,
    admits r.exports, trivial⟩
  ofDoc?_toDoc r := by
    show ((ofDoc? (toDoc r.hasIbcEntryPoints)).bind fun ibc =>
      (ofDoc? (toDoc r.requiredCapabilities)).bind fun capabilities =>
      (ofDoc? (toDoc r.exports)).bind fun exports => some ⟨ibc, capabilities, exports⟩) = some r
    simp only [ofDoc?_toDoc, Option.bind_some]

instance : Lawful Manifest where
  admits m := ⟨by decide, rfl, admits m.version, rfl, admits m.checksum, rfl, admits m.size, rfl,
    admits m.report, trivial⟩
  ofDoc?_toDoc m := by
    show ((ofDoc? (toDoc m.version)).bind fun version =>
      (ofDoc? (toDoc m.checksum)).bind fun checksum =>
      (ofDoc? (toDoc m.size)).bind fun size =>
      (ofDoc? (toDoc m.report)).bind fun report => some ⟨version, checksum, size, report⟩) = some m
    simp only [ofDoc?_toDoc, Option.bind_some]

end Wire

/-- The records that cross a boundary of the host. -/
inductive RecordType where
  | keyArgs
  | keyValueArgs
  | writeArgs
  | response
  | subMsg
  | event
  | namedText
  | callEnv
  | env
  | blockInfo
  | contractInfo
  | transactionInfo
  | messageInfo
  | coin
  | rate
  | capabilityReport
  | manifest
  | checksum

namespace RecordType

abbrev Value : RecordType → Type
  | keyArgs => KeyArgs
  | keyValueArgs => KeyValueArgs
  | writeArgs => WriteArgs
  | response => Response
  | subMsg => SubMsg
  | event => Event
  | namedText => Attribute
  | callEnv => CallEnv
  | env => Env
  | blockInfo => BlockInfo
  | contractInfo => ContractInfo
  | transactionInfo => TransactionInfo
  | messageInfo => MessageInfo
  | coin => Coin
  | rate => Gas.Rate
  | capabilityReport => CapabilityReport
  | manifest => Manifest
  | checksum => Checksum

instance : (r : RecordType) → Wire r.Value
  | keyArgs => inferInstanceAs (Wire KeyArgs)
  | keyValueArgs => inferInstanceAs (Wire KeyValueArgs)
  | writeArgs => inferInstanceAs (Wire WriteArgs)
  | response => inferInstanceAs (Wire Response)
  | subMsg => inferInstanceAs (Wire SubMsg)
  | event => inferInstanceAs (Wire Event)
  | namedText => inferInstanceAs (Wire Attribute)
  | callEnv => inferInstanceAs (Wire CallEnv)
  | env => inferInstanceAs (Wire Env)
  | blockInfo => inferInstanceAs (Wire BlockInfo)
  | contractInfo => inferInstanceAs (Wire ContractInfo)
  | transactionInfo => inferInstanceAs (Wire TransactionInfo)
  | messageInfo => inferInstanceAs (Wire MessageInfo)
  | coin => inferInstanceAs (Wire Coin)
  | rate => inferInstanceAs (Wire Gas.Rate)
  | capabilityReport => inferInstanceAs (Wire CapabilityReport)
  | manifest => inferInstanceAs (Wire Manifest)
  | checksum => inferInstanceAs (Wire Checksum)

instance (r : RecordType) : Wire.Lawful r.Value := by
  cases r <;> infer_instance

end RecordType

def Request.Short : Request → Prop
  | .set key value => key.length < 2 ^ 32 ∧ value.length < 2 ^ 32
  | .get key | .has key | .remove key => key.length < 2 ^ 32
  | .write key value => key.length < 2 ^ 32 ∧ ∀ v ∈ value, v.length < 2 ^ 32

section Arguments

variable {key value : Bytes}

theorem short_keyName : (Bytes.ofText "key").length < 2 ^ 32 := by decide

theorem short_valueName : (Bytes.ofText "value").length < 2 ^ 32 := by decide

theorem KeyArgs.short (hk : key.length < 2 ^ 32) : (Wire.toDoc (KeyArgs.mk key)).Short := by
  refine Doc.short_map.2 ⟨by simp, List.forall_mem_singleton.2 ⟨short_keyName, ?_⟩⟩
  exact Doc.short_bytes.2 hk

theorem KeyValueArgs.short (hk : key.length < 2 ^ 32) (hv : value.length < 2 ^ 32) :
    (Wire.toDoc (KeyValueArgs.mk key value)).Short := by
  refine Doc.short_map.2 ⟨by simp, List.forall_mem_cons.2 ⟨⟨short_keyName, ?_⟩,
    List.forall_mem_singleton.2 ⟨short_valueName, ?_⟩⟩⟩
  · exact Doc.short_bytes.2 hk
  · exact Doc.short_bytes.2 hv

theorem WriteArgs.short {value : Option Bytes} (hk : key.length < 2 ^ 32)
    (hv : ∀ v ∈ value, v.length < 2 ^ 32) : (Wire.toDoc (WriteArgs.mk key value)).Short := by
  refine Doc.short_map.2 ⟨by simp, List.forall_mem_cons.2 ⟨⟨short_keyName, ?_⟩,
    List.forall_mem_singleton.2 ⟨short_valueName, ?_⟩⟩⟩
  · exact Doc.short_bytes.2 hk
  · cases value with
    | none => exact Doc.short_null
    | some v => exact Doc.short_bytes.2 (hv v rfl)

end Arguments

theorem Request.decode?_args {q : Request} (short : q.Short) (t : Bytes) :
    decode? (q.args ++ t) q.method = some q := by
  cases q with
  | set key value =>
      have read := Wire.ofMsgpack?_toMsgpack (KeyValueArgs.short short.1 short.2) t
      simp [decode?, args, method, read]
  | get key | has key | remove key =>
      have read := Wire.ofMsgpack?_toMsgpack (KeyArgs.short short) t
      simp [decode?, args, method, read]
  | write key value =>
      have read := Wire.ofMsgpack?_toMsgpack (WriteArgs.short short.1 short.2) t
      simp [decode?, args, method, read]

/-- The records that cross a boundary of the host are read back from their written forms, and so
are requests from their arguments: a write without a value, one of the empty value and one of any
other value remain three different requests. -/
theorem records_round_trip :
    (∀ r : RecordType, Wire.RoundTrips r.Value) ∧
      ∀ q : Request, q.Short → ∀ t, Request.decode? (q.args ++ t) q.method = some q :=
  ⟨fun r => Wire.roundTrips r.Value, fun _ short t => Request.decode?_args short t⟩

/-- Deleting, emptying and setting the value under a key are read back as what they were. -/
theorem records_round_trip_writes :
    (∀ value ∈ [none, some [], some [2]], ∀ t,
      Request.decode? ((Request.write [1] value).args ++ t) .write = some (.write [1] value)) ∧
    Wire.toMsgpack (WriteArgs.mk [1] none) ≠ Wire.toMsgpack (WriteArgs.mk [1] (some [])) ∧
    Wire.ofJson? (Wire.toJson .compact (WriteArgs.mk [1] (some []))) =
      some (WriteArgs.mk [1] (some [])) ∧
    Wire.ofJson? (Wire.toJson .pretty (WriteArgs.mk [1] (some []))) =
      some (WriteArgs.mk [1] (some [])) := by
  have forms : Wire.RoundTrips WriteArgs := records_round_trip.1 .writeArgs
  refine ⟨?_, ?_, forms.json Json.Layout.blank_compact _, forms.json Json.Layout.blank_pretty _⟩
  · intro value listed t
    refine records_round_trip.2 (.write [1] value) ⟨by decide, fun v present => ?_⟩ t
    have small : ∀ value ∈ [none, some [], some [(2 : UInt8)]], ∀ v ∈ value, v.length < 2 ^ 32 := by
      decide
    exact small value listed v present
  · have short : (Wire.toDoc (WriteArgs.mk [1] none)).Short := WriteArgs.short (by decide) nofun
    have short' : (Wire.toDoc (WriteArgs.mk [1] (some []))).Short :=
      WriteArgs.short (by decide) (by simp)
    have apart := forms.msgpack_ne short short' (by simp) []
    rwa [List.append_nil] at apart

end ContractHost
