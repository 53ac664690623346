import ContractHost.Text.Blank
import ContractHost.Text.Decimal
import ContractHost.Vm.Invoke

/-!
Settings of the host, taken from the environment. A variable that is not set, or that should be a
number and is none, leaves the default in place.
-/

namespace ContractHost

structure VmConfig where
  dataDir : String
  gas : GasConfig
  deriving DecidableEq, Repr

def GasConfig.standard : GasConfig := ⟨100, 10, 1⟩

namespace VmConfig

def defaultDataDir : String := "./data"

def number (value : Option String) (default : UInt64) : UInt64 :=
  match value with
  | none => default
  | some s => (Text.parseUInt64? (Text.trim s)).getD default

def ofEnv (env : String → Option String) : VmConfig where
  dataDir := (env "WRAPVM_DATA_DIR").getD defaultDataDir
  gas := ⟨number (env "WRAPVM_INVOKE_BASE_GAS") GasConfig.standard.invokeBase,
    number (env "WRAPVM_HOST_OP_GAS") GasConfig.standard.hostOp,
    number (env "WRAPVM_HOST_BYTE_GAS") GasConfig.standard.hostPerByte⟩

end VmConfig

end ContractHost
