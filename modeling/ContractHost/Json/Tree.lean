import ContractHost.Json.Numeral
import ContractHost.Json.Text
import ContractHost.Json.Token

/-!
JSON texts as trees. A tree keeps strings raw and members in the order in which they stand, so that
each reader of a tree can apply the rules of its own: how deep the nesting may go, which strings it
takes, what a repeated key means.

The tokens are read one after the other by a machine that keeps the open arrays and objects on a
stack; a text is read when its last token leaves the machine with one whole value and nothing open.
-/

namespace ContractHost.Json

inductive Tree where
  | null
  | bool (b : Bool)
  | number (n : Numeral)
  | string (raw : Bytes)
  | array (items : List Tree)
  | object (members : List (Bytes × Tree))

def Tree.ofWord? (w : Bytes) : Option Tree :=
  if w = [0x6E, 0x75, 0x6C, 0x6C] then some .null
  else if w = [0x74, 0x72, 0x75, 0x65] then some (.bool true)
  else if w = [0x66, 0x61, 0x6C, 0x73, 0x65] then some (.bool false)
  else (Numeral.read w).map .number

/-- What is open around a value, with what was read of it before, the latest first. -/
inductive Frame where
  | array (items : List Tree)
  | member (members : List (Bytes × Tree)) (key : Bytes)

/-- What the machine has read, by what may follow. -/
inductive Machine where
  /-- A value has to follow. -/
  | value (stack : List Frame)
  /-- A bracket was opened: an item or the closing bracket follows. -/
  | firstItem (stack : List Frame)
  /-- An item has ended: a comma or the closing bracket follows. -/
  | item (items : List Tree) (stack : List Frame)
  /-- A brace was opened: a key or the closing brace follows. -/
  | firstKey (stack : List Frame)
  /-- A comma was read in an object: a key has to follow. -/
  | nextKey (members : List (Bytes × Tree)) (stack : List Frame)
  /-- A key was read: a colon has to follow. -/
  | colon (members : List (Bytes × Tree)) (key : Bytes) (stack : List Frame)
  /-- A member has ended: a comma or the closing brace follows. -/
  | member (members : List (Bytes × Tree)) (stack : List Frame)
  /-- The whole value was read. -/
  | done (t : Tree)

namespace Machine

/-- Puts a whole value into the innermost thing that is open. -/
def complete (t : Tree) : List Frame → Machine
  | [] => .done t
  | .array items :: s => .item (t :: items) s
  | .member ms k :: s => .member ((k, t) :: ms) s

def startValue (s : List Frame) : Token → Option Machine
  | .openBrace => some (.firstKey s)
  | .openBracket => some (.firstItem s)
  | .string raw => some (complete (.string raw) s)
  | .word w => (Tree.ofWord? w).map (complete · s)
  | _ => none

def step : Machine → Token → Option Machine
  | .value s, t => startValue s t
  | .firstItem s, .closeBracket => some (complete (.array []) s)
  | .firstItem s, t => startValue (.array [] :: s) t
  | .item items s, .comma => some (.value (.array items :: s))
  | .item items s, .closeBracket => some (complete (.array items.reverse) s)
  | .firstKey s, .closeBrace => some (complete (.object []) s)
  | .firstKey s, .string k => some (.colon [] k s)
  | .nextKey ms s, .string k => some (.colon ms k s)
  | .colon ms k s, .colon => some (.value (.member ms k :: s))
  | .member ms s, .comma => some (.nextKey ms s)
  | .member ms s, .closeBrace => some (complete (.object ms.reverse) s)
  | _, _ => none

def run (m : Machine) : List Token → Option Machine
  | [] => some m
  | t :: rest =>
    match m.step t with
    | none => none
    | some m' => m'.run rest

def result? : Machine → Option Tree
  | .done t => some t
  | _ => none

end Machine

def Tree.parse (text : Bytes) : Option Tree := do
  let m ← (Machine.value []).run (← tokens text)
  m.result?

mutual

/-- A value that nobody asked for may be passed over if its strings may. -/
def Tree.isSkippable : Tree → Bool
  | .string raw => Json.isSkippable raw
  | .array items => areSkippable items
  | .object members => membersAreSkippable members
  | _ => true

def areSkippable : List Tree → Bool
  | [] => true
  | t :: rest => t.isSkippable && areSkippable rest

def membersAreSkippable : List (Bytes × Tree) → Bool
  | [] => true
  | (k, t) :: rest => Json.isSkippable k && t.isSkippable && membersAreSkippable rest

end

end ContractHost.Json
