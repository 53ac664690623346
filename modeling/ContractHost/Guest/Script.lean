import ContractHost.Call.Response
import ContractHost.Guest.Request

/-!
Scripted guests. A script is a list of instructions that are carried out in order, with one register
that holds the last bytes that were read. Every instruction that comes to an end is noted with what
it gave; one that fails ends the script, unless it is marked to be caught. A script that runs to its
end answers with the blank response.
-/

namespace ContractHost.Guest

inductive Returned where
  | raw (b : Bytes)
  | last
  | args
  | data (b : Bytes)
  | dataLast
  | dataArgs
  | attributes (l : List Attribute)

inductive Action where
  /-- A request to the host state, through a locator that may be malformed. -/
  | request (uri : String) (r : Request)
  /-- Invokes a unit; what is left out is taken from the script's own invocation. -/
  | invoke (uri : String) (method : Option String) (args : Option Bytes) (passEnv : Bool)
  | charge (units : UInt64)
  | gas
  | call
  | env
  | fail (e : InvokeError)
  | panic (message : String)
  | give (what : Returned)

structure Instruction where
  action : Action
  /-- A failure of this instruction does not end the script. -/
  caught : Bool

def Action.name : Action → String
  | .request _ (.set ..) => "set"
  | .request _ (.get _) => "get"
  | .request _ (.has _) => "has"
  | .request _ (.remove _) => "remove"
  | .request _ (.write ..) => "write"
  | .invoke .. => "invoke"
  | .charge _ => "charge"
  | .gas => "gas"
  | .call => "call"
  | .env => "env"
  | .fail _ => "fail"
  | .panic _ => "panic"
  | .give _ => "return"

def readAnswer (raw : Bytes) : Request → Option Finding
  | .set .. => (Wire.ofMsgpack? (α := Bool) raw).map .flag
  | .get _ => (Wire.ofMsgpack? (α := Bytes) raw).map .bytes
  | .has _ => (Wire.ofMsgpack? (α := Bool) raw).map .flag
  | .remove _ => (Wire.ofMsgpack? (α := Bool) raw).map .flag
  | .write .. => (Wire.ofMsgpack? (α := UInt32) raw).map .number

def Returned.bytes (call : Call) (register : Bytes) : Returned → Bytes
  | .raw b => b
  | .last => register
  | .args => call.args
  | .data b => Wire.toMsgpack (Response.withData b)
  | .dataLast => Wire.toMsgpack (Response.withData register)
  | .dataArgs => Wire.toMsgpack (Response.withData call.args)
  | .attributes l => Wire.toMsgpack { Response.blank with attributes := l }

/-- Notes how an instruction ended and goes on, or ends the script. -/
def Instruction.conclude (i : Instruction) (outcome : Except InvokeError Finding) (next : Program) :
    Program :=
  .note ⟨i.action.name, outcome⟩ <|
    match outcome with
    | .error e => if i.caught then next else .fail e
    | .ok _ => next

def registerAfter (register : Bytes) : Except InvokeError Finding → Bytes
  | .ok (.bytes b) => b
  | _ => register

/-- The program of a script, for an invocation and what the register holds. -/
def Script.program (call : Call) : List Instruction → Bytes → Program
  | [], _ => .give Response.blank
  | i :: rest, register =>
    match i.action with
    | .panic message => .panic message
    | .give what => .done (.ok (what.bytes call register))
    | .request text r =>
      match Uri.parse text with
      | .error e => i.conclude (.error (.ofUri e)) (Script.program call rest register)
      | .ok uri =>
        -- Whatever stands behind the locator may answer, so the answer has to be read as well.
        .invoke uri ⟨r.method.name, r.args, none⟩ fun result =>
          let outcome : Except InvokeError Finding :=
            match result with
            | .error e => .error e
            | .ok raw =>
              match readAnswer raw r with
              | none => .error .malformed
              | some f => .ok f
          i.conclude outcome (Script.program call rest (registerAfter register outcome))
    | .invoke text method args passEnv =>
      match Uri.parse text with
      | .error e => i.conclude (.error (.ofUri e)) (Script.program call rest register)
      | .ok uri =>
        .invoke uri ⟨method.getD call.method, args.getD call.args, if passEnv then call.env else none⟩
          fun result =>
            let outcome := result.map Finding.bytes
            i.conclude outcome (Script.program call rest (registerAfter register outcome))
    | .charge units =>
      .charge units fun answer =>
        let outcome : Except InvokeError Finding :=
          match answer with
          | none => .ok .nothing
          | some (.ok ()) => .ok (.flag true)
          | some (.error refusal) => .error (.outOfGas refusal)
        i.conclude outcome (Script.program call rest register)
    | .gas =>
      .tank fun t =>
        i.conclude (.ok (match t with
          | none => .nothing
          | some t => .tank t)) (Script.program call rest register)
    | .call => i.conclude (.ok (.call call)) (Script.program call rest register)
    | .env =>
      i.conclude (match Wire.ofMsgpack? (α := CallEnv) (call.env.getD []) with
        | none => .error .malformed
        | some e => .ok (.env e)) (Script.program call rest register)
    | .fail e => i.conclude (.error e) (Script.program call rest register)

structure Scripted where
  methods : Table String (List Instruction)
  /-- The script of all other methods. -/
  any : Option (List Instruction)

def Scripted.guest (s : Scripted) : Guest := fun call =>
  match s.methods.get? call.method with
  | some script => Script.program call script []
  | none =>
    match s.any with
    | some script => Script.program call script []
    | none => .fail (.unknownMethod call.method)

end ContractHost.Guest
