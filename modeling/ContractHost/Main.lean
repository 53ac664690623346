import ContractHost.Cli.Run

/-!
The tool on the machine: its files, its standard input and its environment.
-/

namespace ContractHost

def OsError.ofMachine (e : IO.Error) : OsError :=
  match e with
  | .noFileOrDirectory .. => .notFound
  | .permissionDenied .. => .permissionDenied
  | .alreadyExists .. => .alreadyExists
  | .inappropriateType _ code text => ⟨code.toNat, text⟩
  | .otherError code text => ⟨code.toNat, text⟩
  | .invalidArgument _ code text => ⟨code.toNat, text⟩
  | .resourceExhausted _ code text => ⟨code.toNat, text⟩
  | .unsupportedOperation code text => ⟨code.toNat, text⟩
  | e => ⟨5, toString e⟩

def attempt {α : Type} (act : IO α) : IO (Except OsError α) := do
  match ← act.toBaseIO with
  | .ok a => return .ok a
  | .error e => return .error (.ofMachine e)

instance : FileSystem IO where
  read p := attempt do return (← IO.FS.readBinFile p.text).toList
  write p b := attempt (IO.FS.writeBinFile p.text ⟨b.toArray⟩)
  createDirs p := attempt (IO.FS.createDirAll p.text)
  list p := attempt do
    let place ← IO.FS.realPath p.text
    return (← place.readDir).toList.map fun e => Bytes.ofText e.fileName
  isFile p := do
    let there ← attempt do
      let place ← IO.FS.realPath p.text
      return (← place.metadata).type == .file
    return there.toOption.getD false

def readStdin : IO (Except OsError Bytes) := attempt do
  return (← (← IO.getStdin).readBinToEnd).toList

end ContractHost

open ContractHost in
def main (args : List String) : IO UInt32 := do
  let names := ["WRAPVM_DATA_DIR", "WRAPVM_INVOKE_BASE_GAS", "WRAPVM_HOST_OP_GAS",
    "WRAPVM_HOST_BYTE_GAS", "CLICOLOR_FORCE"]
  let values ← names.filterMapM fun n => do return (← IO.getEnv n).map (n, ·)
  let out ← Cli.run args (fun n => values.lookup n) readStdin
  (← IO.getStdout).write ⟨out.stdout.toArray⟩
  (← IO.getStderr).putStr out.stderr
  return out.code
