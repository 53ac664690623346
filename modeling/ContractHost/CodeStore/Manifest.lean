import ContractHost.CapabilityReport
import ContractHost.Checksum
import ContractHost.Wire.Codec

/-!
The manifest that is kept beside every stored code: which code it belongs to, and the capability
report that was found when the code was stored.
-/

namespace ContractHost

instance : Wire Checksum where
  shape := .text
  toDoc c := .text c.toHex
  ofDoc?
    | .text s => (Checksum.parse s).toOption
    | _ => none

instance : Wire CapabilityReport where
  shape := .record <|
    .cons "has_ibc_entry_points" .bool none <|
    .cons "required_capabilities" (Wire.shape TextSet) (some (.list [])) <|
    .cons "exports" (Wire.shape TextSet) (some (.list [])) .nil
  toDoc r := .map [("has_ibc_entry_points", Wire.toDoc r.hasIbcEntryPoints),
    ("required_capabilities", Wire.toDoc r.requiredCapabilities),
    ("exports", Wire.toDoc r.exports)]
  ofDoc?
    | .map [(_, ibc), (_, capabilities), (_, exports)] => do
      return ⟨← Wire.ofDoc? ibc, ← Wire.ofDoc? capabilities, ← Wire.ofDoc? exports⟩
    | _ => none

structure Manifest where
  version : UInt32
  checksum : Checksum
  size : UInt64
  report : CapabilityReport
  deriving DecidableEq

namespace Manifest

def currentVersion : UInt32 := 1

def of (code : Bytes) : Manifest :=
  ⟨currentVersion, Checksum.of code, UInt64.ofNat code.length, CapabilityReport.inspect code⟩

end Manifest

instance : Wire Manifest where
  shape := .record <|
    .cons "version" (Wire.shape UInt32) none <|
    .cons "checksum" (Wire.shape Checksum) none <|
    .cons "size" (Wire.shape UInt64) none <|
    .cons "report" (Wire.shape CapabilityReport) none .nil
  toDoc m := .map [("version", Wire.toDoc m.version), ("checksum", Wire.toDoc m.checksum),
    ("size", Wire.toDoc m.size), ("report", Wire.toDoc m.report)]
  ofDoc?
    | .map [(_, version), (_, checksum), (_, size), (_, report)] => do
      return ⟨← Wire.ofDoc? version, ← Wire.ofDoc? checksum, ← Wire.ofDoc? size,
        ← Wire.ofDoc? report⟩
    | _ => none

end ContractHost
