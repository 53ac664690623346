import ContractHost.CodeStore.Error
import ContractHost.Gas.Tank
import ContractHost.Uri

/-!
Failures of invocations, and failures of calls as the host sees them.
-/

namespace ContractHost

inductive InvokeError where
  | unknownMethod (method : String)
  /-- The unit itself reported a failure. -/
  | guest (reason : String)
  | serialization (reason : String)
  | resolution (reason : String)
  | unresolved (uri : Uri)
  /-- The host state was asked for by someone to whose call it is not bound. -/
  | unbound
  | outOfGas (refusal : Gas.Refusal)
  | store (cause : StoreError)
  deriving DecidableEq

namespace InvokeError

def message : InvokeError → String
  | .unknownMethod method => "unknown method: " ++ method
  | .guest reason => "guest: " ++ reason
  | .serialization reason => "serialization: " ++ reason
  | .resolution reason => "resolution: " ++ reason
  | .unresolved uri => "no resolver for " ++ uri.text
  | .unbound => "host state is not bound"
  | .outOfGas r =>
    "out of gas: needed " ++ toString r.needed ++ ", remaining " ++ toString r.remaining
  | .store cause => cause.message

/-- Bytes that are no value of the type that was asked for. -/
def malformed : InvokeError := .serialization "malformed value"

def ofUri (e : Uri.Error) : InvokeError := .resolution e.message

end InvokeError

inductive VmError where
  | invalidInput (reason : String)
  | storageFailure (cause : StoreError)
  | notFound (what : String)
  | serialization (reason : String)
  | unknownMethod (method : String)
  | guestInvocation (reason : String)
  | insufficientGas (reason : String)
  | scopeUnbound
  | alreadyBound
  deriving DecidableEq

namespace VmError

def message : VmError → String
  | .invalidInput reason => "invalid input: " ++ reason
  | .storageFailure cause => "storage failure: " ++ cause.message
  | .notFound what => "not found: " ++ what
  | .serialization reason => "serialization: " ++ reason
  | .unknownMethod method => "unknown method: " ++ method
  | .guestInvocation reason => "guest invocation: " ++ reason
  | .insufficientGas reason => "insufficient gas: " ++ reason
  | .scopeUnbound => "host state is not bound"
  | .alreadyBound => "host state is already bound to another call"

def ofStore : StoreError → VmError
  | .invalidInput reason => .invalidInput reason
  | .notFound c => .notFound ("code " ++ c.toHex)
  | e => .storageFailure e

def ofInvoke : InvokeError → VmError
  | .unknownMethod method => .unknownMethod method
  | .guest reason => .guestInvocation reason
  | .serialization reason => .serialization reason
  | .resolution reason => .notFound reason
  | .unresolved uri => .notFound uri.text
  | .unbound => .scopeUnbound
  | .outOfGas r => .insufficientGas (InvokeError.outOfGas r).message
  | .store e => ofStore e

end VmError

structure CallFailure where
  error : VmError
  gasUsed : UInt64
  deriving DecidableEq

def CallFailure.message (f : CallFailure) : String :=
  f.error.message ++ " (gas used: " ++ toString f.gasUsed ++ ")"

end ContractHost
