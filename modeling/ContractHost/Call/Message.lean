import ContractHost.Json.Tree
import ContractHost.Msgpack.Writer
import ContractHost.Table

/-!
Messages to contracts. A message is a JSON object, and a contract gets it as a MessagePack map: at
every level the keys ascend, and of several members with one key the last one counts. A blank
message, or `null`, is the empty map.
-/

namespace ContractHost.Message

def maxDepth : Nat := 127

mutual

/-- The document that a JSON value stands for, if it is nested at most `depth` deep, its strings
are texts and its numbers are not too great. -/
def ofTree? (depth : Nat) : Json.Tree → Option Doc
  | .null => some .null
  | .bool b => some (.bool b)
  | .number n =>
    match n.value? with
    | none => none
    | some (.int i) => some (.int i)
    | some (.double bits) => some (.double bits)
  | .string raw => (Json.stringText? raw).map .text
  | .array items =>
    match depth with
    | 0 => none
    | d + 1 => (ofItems? d items).map .list
  | .object members =>
    match depth with
    | 0 => none
    | d + 1 => (ofMembers? d members).map fun ds => .map (Table.ofList ds).entries

def ofItems? (depth : Nat) : List Json.Tree → Option (List Doc)
  | [] => some []
  | t :: rest =>
    match ofTree? depth t, ofItems? depth rest with
    | some d, some ds => some (d :: ds)
    | _, _ => none

/-- The keys and documents that the members of an object stand for. -/
def ofMembers? (depth : Nat) : List (Bytes × Json.Tree) → Option (List (String × Doc))
  | [] => some []
  | (k, t) :: rest =>
    match Json.stringText? k, ofTree? depth t, ofMembers? depth rest with
    | some k, some d, some ds => some ((k, d) :: ds)
    | _, _, _ => none

end

inductive Error where
  /-- It is no JSON. -/
  | malformed
  /-- It is JSON, but no object. -/
  | notAnObject
  deriving DecidableEq, Repr

def Error.message : Error → String
  | .malformed => "message: malformed JSON"
  | .notAnObject => "message must be a JSON object"

/-- The ASCII blanks: tab, line feed, form feed, carriage return and space. -/
def isBlank (b : UInt8) : Bool := b == 0x09 || b == 0x0A || b == 0x0C || b == 0x0D || b == 0x20

def parse (msg : Bytes) : Except Error Doc :=
  if msg.all isBlank then .ok (.map [])
  else
    match (Json.Tree.parse msg).bind (ofTree? maxDepth) with
    | none => .error .malformed
    | some (.map entries) => .ok (.map entries)
    | some .null => .ok (.map [])
    | some _ => .error .notAnObject

def decode (msg : Bytes) : Except Error Bytes := (parse msg).map Msgpack.write

end ContractHost.Message
