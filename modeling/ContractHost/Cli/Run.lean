import ContractHost.Cli.Arguments
import ContractHost.Cli.Style
import ContractHost.CodeStore.Basic
import ContractHost.Config

/-!
The commands of the tool `wrapx`, which looks after a code store: print the checksum of a file, store
a file, fetch a code, show the capability report of a code, list what is stored. A command that
fails says so on one line, and the text of that line decides the exit code.
-/

namespace ContractHost.Cli

structure Output where
  code : UInt32
  stdout : Bytes
  stderr : String

inductive Failure where
  | store (cause : StoreError)
  | readStdin (cause : OsError)
  | readFile (cause : OsError)
  | parseChecksum (cause : Checksum.Error)
  | writeFile (path : String) (cause : OsError)
  deriving DecidableEq

def Failure.message : Failure → String
  | .store cause => cause.message
  | .readStdin cause => "read stdin: " ++ cause.message
  | .readFile cause => "read file: " ++ cause.message
  | .parseChecksum cause => "parse checksum: " ++ (StoreError.ofChecksum cause).message
  | .writeFile path cause => "write " ++ path ++ ": " ++ cause.message

/-- Whether some characters stand somewhere in a text. -/
def occursIn (part : List Char) : List Char → Bool
  | [] => part.isEmpty
  | c :: rest => part.isPrefixOf (c :: rest) || occursIn part rest

/-- The exit code for the line about a failure: what comes from the files of the store is 1, what was
not found is 3, and what could not be read or was given wrongly is 2. -/
def exitCode (message : String) : UInt32 :=
  let cs := message.toList
  if "storage:".toList.isPrefixOf cs then 1
  else if occursIn "not found".toList cs then 3
  else if occursIn "read ".toList cs || occursIn "parse ".toList cs ||
      occursIn "invalid ".toList cs then 2
  else 1

structure Report where
  stdout : Bytes
  stderr : String

def Report.lines (l : List String) : Report := ⟨l.flatMap fun s => Bytes.ofText s ++ [0x0A], ""⟩

def reportLines (colour : Bool) (c : Checksum) (r : CapabilityReport) : List String :=
  let dim := paint colour .dimmed
  let ibc := if r.hasIbcEntryPoints then paint colour .boldGreen "yes" else "no"
  let capabilities :=
    if r.requiredCapabilities.isEmpty then dim "none"
    else paint colour .yellow (String.intercalate ", " r.requiredCapabilities.keys)
  let exports :=
    if r.exports.isEmpty then []
    else ("  " ++ dim "exports" ++ ":") ::
      r.exports.keys.map fun name => "    " ++ dim "•" ++ " " ++ name
  [paint colour .bold "Code:" ++ " " ++ dim c.toHex,
   "  " ++ dim "IBC entry points:" ++ " " ++ ibc,
   "  " ++ dim "Capabilities:    " ++ " " ++ capabilities] ++ exports

variable {m : Type → Type} [Monad m] [FileSystem m]

/-- Reads the file with a name, or the standard input for a lone dash. -/
def readInput (stdin : m (Except OsError Bytes)) (file : String) : m (Except Failure Bytes) := do
  if file = "-" then return (← stdin).mapError .readStdin
  else return (← FileSystem.read (Path.ofText file)).mapError .readFile

def listLine (colour : Bool) (s : CodeStore) (c : Checksum) : m String := do
  let size ← s.manifest c
  let text := match size with
    | .ok (some f) => toString f.size ++ " bytes"
    | _ => "?"
  return "  " ++ paint colour .dimmed "•" ++ " " ++ c.toHex ++ " " ++ paint colour .dimmed text

def runGet (colour : Bool) (s : CodeStore) (c : Checksum) (out : Option String) :
    m (Except Failure Report) := do
  match ← s.getCode c with
  | .error e => return .error (.store e)
  | .ok code =>
    match out with
    | none => return .ok ⟨code, ""⟩
    | some path =>
      match ← FileSystem.write (Path.ofText path) code with
      | .error e => return .error (.writeFile path e)
      | .ok () =>
        return .ok ⟨[], paint colour .green "✓" ++ " " ++ toString code.length ++ " bytes → " ++
          path ++ "\n"⟩

def runAnalyze (colour : Bool) (s : CodeStore) (c : Checksum) (json : Bool) :
    m (Except Failure Report) := do
  match ← s.analyzeCode c with
  | .error e => return .error (.store e)
  | .ok r =>
    if json then return .ok ⟨Wire.toJson .pretty r ++ [0x0A], ""⟩
    else return .ok (.lines (reportLines colour c r))

def runCreate (colour : Bool) (s : CodeStore) (code : Bytes) : m (Except Failure Report) := do
  match ← s.create code with
  | .error e => return .error (.store e)
  | .ok c =>
    let dim := paint colour .dimmed
    return .ok (.lines
      [dim "Checksum:" ++ " " ++ paint colour .cyan c.toHex,
       dim "Size:    " ++ " " ++ toString code.length ++ " bytes",
       dim "Path:    " ++ " " ++ (s.codePath c).text])

def runList (colour : Bool) (s : CodeStore) : m (Except Failure Report) := do
  match ← s.list with
  | .error e => return .error (.store e)
  | .ok [] => return .ok (.lines [paint colour .dimmed "No code stored."])
  | .ok all =>
    let lines ← all.mapM (listLine colour s)
    return .ok (.lines
      ([paint colour .bold "Store:" ++ " " ++ toString all.length ++ " entries", ""] ++ lines))

/-- Carries out a command. The store is opened before anything else is looked at. -/
def runCommand (colour : Bool) (stdin : m (Except OsError Bytes)) (dataDir : String) :
    Command → m (Except Failure Report)
  | .checksum file => do
    match ← readInput stdin file with
    | .error e => return .error e
    | .ok b => return .ok (.lines [(Checksum.of b).toHex])
  | .create file => do
    match ← CodeStore.openIn dataDir with
    | .error e => return .error (.store e)
    | .ok s =>
      match ← readInput stdin file with
      | .error e => return .error e
      | .ok code => runCreate colour s code
  | .get checksum out => do
    match ← CodeStore.openIn dataDir with
    | .error e => return .error (.store e)
    | .ok s =>
      match Checksum.parse checksum with
      | .error e => return .error (.parseChecksum e)
      | .ok c => runGet colour s c out
  | .analyze checksum json => do
    match ← CodeStore.openIn dataDir with
    | .error e => return .error (.store e)
    | .ok s =>
      match Checksum.parse checksum with
      | .error e => return .error (.parseChecksum e)
      | .ok c => runAnalyze colour s c json
  | .list => do
    match ← CodeStore.openIn dataDir with
    | .error e => return .error (.store e)
    | .ok s => runList colour s

def usage : String := "usage: wrapx [--data-dir DIR] [-v] checksum|create|get|analyze|list\n"

def version : String := "wrapx 0.1.0\n"

def run (args : List String) (env : String → Option String) (stdin : m (Except OsError Bytes)) :
    m Output := do
  match parse args (env "WRAPVM_DATA_DIR") with
  | .error .usage => return ⟨2, [], usage⟩
  | .error .help => return ⟨0, Bytes.ofText usage, ""⟩
  | .error .version => return ⟨0, Bytes.ofText version, ""⟩
  | .ok invocation =>
    -- Colour is never guessed: only the environment can ask for it.
    let colour := forcesColour (env "CLICOLOR_FORCE")
    let dataDir := invocation.dataDir.getD (VmConfig.ofEnv env).dataDir
    match ← runCommand colour stdin dataDir invocation.command with
    | .ok r => return ⟨0, r.stdout, r.stderr⟩
    | .error e =>
      return ⟨exitCode e.message, [],
        paint colour .boldRed "error:" ++ " " ++ e.message ++ "\n"⟩

end ContractHost.Cli
