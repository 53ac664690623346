import ContractHost.Wasm.Module

/-!
The capabilities that a code asks for, read off the names of the functions it exports. Code that is
no WebAssembly module asks for none.
-/

namespace ContractHost

structure CapabilityReport where
  /-- The code takes part in interchain messaging. -/
  hasIbcEntryPoints : Bool
  requiredCapabilities : TextSet
  exports : TextSet
  deriving DecidableEq

namespace CapabilityReport

def none : CapabilityReport := ⟨false, ∅, ∅⟩

/-- What a code must export, all of it, to take part in interchain messaging. -/
def ibcEntryPoints : List String :=
  ["ibc_channel_open", "ibc_channel_connect", "ibc_channel_close",
   "ibc_packet_receive", "ibc_packet_ack", "ibc_packet_timeout"]

/-- The start of the names that declare a capability. -/
def capabilityMark : String := "requires_"

def capability? (name : String) : Option String :=
  match capabilityMark.toList.isPrefixOf? name.toList with
  | some (c :: cs) => some (String.ofList (c :: cs))
  | _ => .none

def ofExports (exports : TextSet) : CapabilityReport where
  hasIbcEntryPoints := ibcEntryPoints.all exports.contains
  requiredCapabilities := TextSet.ofList (exports.keys.filterMap capability?)
  exports := exports

def inspect (code : Bytes) : CapabilityReport :=
  match Wasm.exportedFunctions code with
  | some exports => ofExports exports
  | .none => none

end CapabilityReport

end ContractHost
