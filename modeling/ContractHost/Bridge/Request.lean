import ContractHost.Call.Error
import ContractHost.Wire.Codec

/-!
What guests can ask of the host state: the five methods, the forms of their arguments, and what each
request means for a key-value map. A request touches a number of bytes, for which it is charged; it
has an answer; and it may change the value under one key.
-/

namespace ContractHost

inductive HostMethod where
  | set
  | get
  | has
  | remove
  /-- Sets a value, or deletes the key if no value is given. -/
  | write
  deriving DecidableEq, Repr

namespace HostMethod

def all : List HostMethod := [set, get, has, remove, write]

def name : HostMethod → String
  | .set => "Set"
  | .get => "Get"
  | .has => "Has"
  | .remove => "Remove"
  | .write => "Write"

def parse (s : String) : Except InvokeError HostMethod :=
  match all.find? fun m => m.name = s with
  | some m => .ok m
  | none => .error (.unknownMethod s)

end HostMethod

structure KeyArgs where
  key : Bytes
  deriving DecidableEq, Repr

structure KeyValueArgs where
  key : Bytes
  value : Bytes
  deriving DecidableEq, Repr

structure WriteArgs where
  key : Bytes
  value : Option Bytes
  deriving DecidableEq, Repr

instance : Wire KeyArgs where
  shape := .record (.cons "key" .bytes none .nil)
  toDoc a := .map [("key", Wire.toDoc a.key)]
  ofDoc?
    | .map [(_, key)] => do return ⟨← Wire.ofDoc? key⟩
    | _ => none

instance : Wire KeyValueArgs where
  shape := .record (.cons "key" .bytes none (.cons "value" .bytes none .nil))
  toDoc a := .map [("key", Wire.toDoc a.key), ("value", Wire.toDoc a.value)]
  ofDoc?
    | .map [(_, key), (_, value)] => do return ⟨← Wire.ofDoc? key, ← Wire.ofDoc? value⟩
    | _ => none

instance : Wire WriteArgs where
  shape := .record (.cons "key" .bytes none (.cons "value" (.option .bytes) (some .null) .nil))
  toDoc a := .map [("key", Wire.toDoc a.key), ("value", Wire.optionToDoc a.value)]
  ofDoc?
    | .map [(_, key), (_, value)] => do return ⟨← Wire.ofDoc? key, ← Wire.optionOfDoc? value⟩
    | _ => none

inductive Request where
  | set (key value : Bytes)
  | get (key : Bytes)
  | has (key : Bytes)
  | remove (key : Bytes)
  | write (key : Bytes) (value : Option Bytes)
  deriving DecidableEq, Repr

namespace Request

def decode? (args : Bytes) : HostMethod → Option Request
  | .set => (Wire.ofMsgpack? (α := KeyValueArgs) args).map fun a => .set a.key a.value
  | .get => (Wire.ofMsgpack? (α := KeyArgs) args).map fun a => .get a.key
  | .has => (Wire.ofMsgpack? (α := KeyArgs) args).map fun a => .has a.key
  | .remove => (Wire.ofMsgpack? (α := KeyArgs) args).map fun a => .remove a.key
  | .write => (Wire.ofMsgpack? (α := WriteArgs) args).map fun a => .write a.key a.value

def method : Request → HostMethod
  | .set .. => .set
  | .get _ => .get
  | .has _ => .has
  | .remove _ => .remove
  | .write .. => .write

def args : Request → Bytes
  | .set k v => Wire.toMsgpack (KeyValueArgs.mk k v)
  | .get k => Wire.toMsgpack (KeyArgs.mk k)
  | .has k => Wire.toMsgpack (KeyArgs.mk k)
  | .remove k => Wire.toMsgpack (KeyArgs.mk k)
  | .write k v => Wire.toMsgpack (WriteArgs.mk k v)

/-- How many bytes a request touches, given the values that there are. -/
def bytesTouched (view : Bytes → Option Bytes) : Request → Nat
  | .set k v => k.length + v.length
  | .get k => k.length + ((view k).getD []).length
  | .has k => k.length
  | .remove k => k.length
  | .write k v => k.length + (v.getD []).length

/-- The encoded answer to a request, given the values that there are. A key without a value reads
as the empty value, and a key with an empty value counts as absent. -/
def answer (view : Bytes → Option Bytes) : Request → Bytes
  | .set .. => Wire.toMsgpack true
  | .get k => Wire.toMsgpack ((view k).getD [])
  | .has k => Wire.toMsgpack (!((view k).getD []).isEmpty)
  | .remove _ => Wire.toMsgpack true
  | .write .. => Wire.toMsgpack (0 : UInt32)

/-- The change that a request makes: the key, and its new value if it keeps one. -/
def change? : Request → Option (Bytes × Option Bytes)
  | .set k v => some (k, some v)
  | .get _ => none
  | .has _ => none
  | .remove k => some (k, none)
  | .write k v => some (k, v)

end Request

end ContractHost
