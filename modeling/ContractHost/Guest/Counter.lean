import ContractHost.Call.Response
import ContractHost.Guest.Request
import ContractHost.Text.Decimal

/-!
A contract that counts how often it is called, whatever the method, and leaves its mark.
-/

namespace ContractHost.Guest.Counter

def countOf (value : Bytes) : UInt64 := ((Bytes.text? value).bind Text.parseUInt64?).getD 0

def guest (tag : String) : Guest := fun _ =>
  Guest.get (Bytes.ofText "count") fun value =>
    Guest.set (Bytes.ofText "count") (Bytes.ofText (toString (countOf value + 1))) fun _ =>
      Guest.set (Bytes.ofText "owner") (Bytes.ofText tag) fun _ => .give Response.blank

end ContractHost.Guest.Counter
