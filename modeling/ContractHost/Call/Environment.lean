import ContractHost.Wire.Codec

/-!
What a contract is told about the call that runs it: the block, the contract itself, the
transaction, and who sent the message with which funds.
-/

namespace ContractHost

structure BlockInfo where
  height : UInt64
  /-- Nanoseconds since the beginning of 1970. -/
  time : UInt64
  chainId : String
  deriving DecidableEq, Repr

structure ContractInfo where
  address : String
  deriving DecidableEq, Repr

structure TransactionInfo where
  index : UInt32
  deriving DecidableEq, Repr

structure Env where
  block : BlockInfo
  contract : ContractInfo
  transaction : Option TransactionInfo
  deriving DecidableEq, Repr

/-- An amount of money, written in decimal digits. -/
structure Coin where
  denom : String
  amount : String
  deriving DecidableEq, Repr

def Coin.ofNat (amount : Nat) (denom : String) : Coin := ⟨denom, toString amount⟩

structure MessageInfo where
  sender : String
  funds : List Coin
  deriving DecidableEq, Repr

structure CallEnv where
  env : Env
  info : MessageInfo
  deriving DecidableEq, Repr

def Env.blank : Env := ⟨⟨0, 0, ""⟩, ⟨""⟩, none⟩

def MessageInfo.blank : MessageInfo := ⟨"", []⟩

instance : Wire BlockInfo where
  shape := .record <|
    .cons "height" (Wire.shape UInt64) none <| .cons "time" (Wire.shape UInt64) none <|
    .cons "chain_id" .text none .nil
  toDoc b := .map [("height", Wire.toDoc b.height), ("time", Wire.toDoc b.time),
    ("chain_id", Wire.toDoc b.chainId)]
  ofDoc?
    | .map [(_, height), (_, time), (_, chainId)] => do
      return ⟨← Wire.ofDoc? height, ← Wire.ofDoc? time, ← Wire.ofDoc? chainId⟩
    | _ => none

instance : Wire ContractInfo where
  shape := .record (.cons "address" .text none .nil)
  toDoc c := .map [("address", Wire.toDoc c.address)]
  ofDoc?
    | .map [(_, address)] => do return ⟨← Wire.ofDoc? address⟩
    | _ => none

instance : Wire TransactionInfo where
  shape := .record (.cons "index" (Wire.shape UInt32) none .nil)
  toDoc t := .map [("index", Wire.toDoc t.index)]
  ofDoc?
    | .map [(_, index)] => do return ⟨← Wire.ofDoc? index⟩
    | _ => none

instance : Wire Env where
  shape := .record <|
    .cons "block" (Wire.shape BlockInfo) none <|
    .cons "contract" (Wire.shape ContractInfo) none <|
    .cons "transaction" (.option (Wire.shape TransactionInfo)) (some .null) .nil
  toDoc e := .map [("block", Wire.toDoc e.block), ("contract", Wire.toDoc e.contract),
    ("transaction", Wire.optionToDoc e.transaction)]
  ofDoc?
    | .map [(_, block), (_, contract), (_, transaction)] => do
      return ⟨← Wire.ofDoc? block, ← Wire.ofDoc? contract, ← Wire.optionOfDoc? transaction⟩
    | _ => none

instance : Wire Coin where
  shape := .record (.cons "denom" .text none (.cons "amount" .text none .nil))
  toDoc c := .map [("denom", Wire.toDoc c.denom), ("amount", Wire.toDoc c.amount)]
  ofDoc?
    | .map [(_, denom), (_, amount)] => do
      return ⟨← Wire.ofDoc? denom, ← Wire.ofDoc? amount⟩
    | _ => none

instance : Wire MessageInfo where
  shape := .record <|
    .cons "sender" .text none <| .cons "funds" (.list (Wire.shape Coin)) (some (.list [])) .nil
  toDoc m := .map [("sender", Wire.toDoc m.sender), ("funds", Wire.listToDoc m.funds)]
  ofDoc?
    | .map [(_, sender), (_, funds)] => do
      return ⟨← Wire.ofDoc? sender, ← Wire.listOfDoc? funds⟩
    | _ => none

instance : Wire CallEnv where
  shape := .record <|
    .cons "env" (Wire.shape Env) none <| .cons "info" (Wire.shape MessageInfo) none .nil
  toDoc c := .map [("env", Wire.toDoc c.env), ("info", Wire.toDoc c.info)]
  ofDoc?
    | .map [(_, env), (_, info)] => do return ⟨← Wire.ofDoc? env, ← Wire.ofDoc? info⟩
    | _ => none

end ContractHost
