import ContractHost.Bytes

/-!
Documents: the values that messages, records and answers are made of, before a format is chosen.
MessagePack and JSON are two ways of writing a document, and a record is read from either by way of
a document.
-/

namespace ContractHost

inductive Doc where
  | null
  | bool (b : Bool)
  /-- An integer of 64 bits, with or without sign. -/
  | int (i : Int)
  /-- A double, given by its bits. -/
  | double (bits : UInt64)
  | text (s : String)
  | bytes (b : Bytes)
  | list (items : List Doc)
  /-- Named values, in the order in which they are written. -/
  | map (entries : List (String × Doc))

end ContractHost
