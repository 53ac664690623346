import ContractHost.Msgpack.Head
import ContractHost.Wire.Doc

/-!
Documents written as MessagePack, every number and length in its shortest form.
-/

namespace ContractHost.Msgpack

def writeText (s : String) : Bytes :=
  let b := Bytes.ofText s
  writeStrHead b.length ++ b

mutual

def write : Doc → Bytes
  | .null => [0xC0]
  | .bool false => [0xC2]
  | .bool true => [0xC3]
  | .int i => writeInt i
  | .double bits => 0xCB :: writeBE 8 bits.toNat
  | .text s => writeText s
  | .bytes b => writeBinHead b.length ++ b
  | .list items => writeArrayHead items.length ++ writeItems items
  | .map entries => writeMapHead entries.length ++ writeEntries entries

def writeItems : List Doc → Bytes
  | [] => []
  | d :: rest => write d ++ writeItems rest

def writeEntries : List (String × Doc) → Bytes
  | [] => []
  | (k, d) :: rest => writeText k ++ (write d ++ writeEntries rest)

end

end ContractHost.Msgpack
