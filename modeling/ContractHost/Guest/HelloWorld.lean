import ContractHost.Call.Response
import ContractHost.Guest.Request
import ContractHost.Text.Lossy

/-!
A contract that greets: it remembers a name in the host state, and has methods that fail, break down
or write a lot.
-/

namespace ContractHost.Guest.HelloWorld

structure InitArgs where
  name : String

structure UpdateNameArgs where
  newName : String

structure SpamArgs where
  count : UInt32
  size : UInt64

instance : Wire InitArgs where
  shape := .record (.cons "name" .text none .nil)
  toDoc a := .map [("name", Wire.toDoc a.name)]
  ofDoc?
    | .map [(_, name)] => do return ⟨← Wire.ofDoc? name⟩
    | _ => none

instance : Wire UpdateNameArgs where
  shape := .record (.cons "newName" .text none .nil)
  toDoc a := .map [("newName", Wire.toDoc a.newName)]
  ofDoc?
    | .map [(_, newName)] => do return ⟨← Wire.ofDoc? newName⟩
    | _ => none

instance : Wire SpamArgs where
  shape := .record <|
    .cons "count" (Wire.shape UInt32) none <| .cons "size" (Wire.shape UInt64) none .nil
  toDoc a := .map [("count", Wire.toDoc a.count), ("size", Wire.toDoc a.size)]
  ofDoc?
    | .map [(_, count), (_, size)] => do return ⟨← Wire.ofDoc? count, ← Wire.ofDoc? size⟩
    | _ => none

def nameKey : Bytes := Bytes.ofText "name"

def reply (text : String) : Program := .give (Response.withData (Bytes.ofText text))

/-- The first size at which a value cannot be held at all. -/
def sizeBound : Nat := 9223372036854775808

/-- Sets the keys `spam/<i>`, `spam/<i + 1>` and so on, `n` of them, to values of a size. -/
def spam (size : Nat) : Nat → Nat → Program
  | 0, _ => reply "done"
  | n + 1, i =>
    if sizeBound ≤ size then .panic "capacity overflow"
    else
      Guest.set (Bytes.ofText ("spam/" ++ toString i)) (List.replicate size 0x78) fun _ =>
        spam size n (i + 1)

def guest : Guest := fun call =>
  match call.method with
  | "instantiate" =>
    Guest.decode call.args fun (a : InitArgs) =>
      Guest.set nameKey (Bytes.ofText a.name) fun _ =>
        reply ("Hello " ++ a.name ++ ". Initialized!")
  | "updateName" =>
    Guest.decode call.args fun (a : UpdateNameArgs) =>
      Guest.set nameKey (Bytes.ofText a.newName) fun _ => reply ("Name updated to " ++ a.newName)
  | "sayHello" =>
    Guest.get nameKey fun name => reply ("Hello from WrapVM, " ++ Text.lossy name)
  | "whoami" =>
    Guest.decode (call.env.getD []) fun (e : CallEnv) =>
      reply (e.info.sender ++ "@" ++ toString e.env.block.height)
  | "spam" =>
    Guest.decode call.args fun (a : SpamArgs) =>
      spam a.size.toNat a.count.toNat 0
  | "writeThenFail" =>
    Guest.set nameKey (Bytes.ofText "Mallory") fun _ => .fail (.guest "refusing to finish")
  | "panic" => .panic "guest bug"
  | other => .fail (.unknownMethod other)

end ContractHost.Guest.HelloWorld
