/-!
The command line: options first, then a command with its own options and arguments. Arguments are
taken one after the other, and the first one that does not fit decides. Everything after a lone `--`
is an argument, whatever it looks like; before that, what starts with a dash is an option, a lone
dash excepted.
-/

namespace ContractHost.Cli

inductive Command where
  | checksum (file : String)
  | create (file : String)
  | get (checksum : String) (out : Option String)
  | analyze (checksum : String) (json : Bool)
  | list
  deriving DecidableEq, Repr

structure Invocation where
  /-- The data directory, if one was named. -/
  dataDir : Option String
  verbose : Bool
  command : Command
  deriving DecidableEq, Repr

/-- What a command line asks for when it is not a command. -/
inductive Refusal where
  /-- It cannot be understood. -/
  | usage
  | help
  | version
  deriving DecidableEq, Repr

inductive Argument where
  /-- The lone `--`. -/
  | escape
  /-- `--name` or `--name=value`. -/
  | long (name : String) (value : Option String)
  /-- A dash with letters behind it. -/
  | short (letters : List Char)
  | plain (text : String)
  deriving DecidableEq, Repr

/-- The value behind the first equals sign, if there is one. -/
def valueAfterEquals (cs : List Char) : Option String :=
  match cs.dropWhile (· != '=') with
  | [] => none
  | _ :: value => some (String.ofList value)

def Argument.of (text : String) : Argument :=
  match text.toList with
  | ['-', '-'] => .escape
  | '-' :: '-' :: cs =>
    .long (String.ofList (cs.takeWhile (· != '='))) (valueAfterEquals cs)
  | '-' :: c :: cs => .short (c :: cs)
  | _ => .plain text

/-- How an option takes its value. -/
inductive OptionKind where
  | flag
  | value
  /-- A value that must not be empty. -/
  | path
  | help
  | version
  deriving DecidableEq, Repr

structure OptionSpec where
  name : String
  letter : Option Char
  kind : OptionKind
  deriving DecidableEq, Repr

structure Found where
  options : List (String × String)
  arguments : List String
  deriving DecidableEq, Repr

namespace Found

def none : Found := ⟨[], []⟩

def option? (f : Found) (name : String) : Option String := f.options.lookup name

def has (f : Found) (name : String) : Bool := (f.option? name).isSome

/-- Adds an option; none may be given twice, and a path must not be empty. -/
def addOption (f : Found) (spec : OptionSpec) (value : String) : Except Refusal Found :=
  if f.has spec.name then .error .usage
  else if spec.kind = .path ∧ value.isEmpty then .error .usage
  else .ok { f with options := (spec.name, value) :: f.options }

def addArgument (f : Found) (text : String) : Found :=
  { f with arguments := f.arguments ++ [text] }

end Found

/-- The value of an option may follow as an argument of its own, unless it looks like an option. -/
def followingValue? : List String → Option (String × List String)
  | [] => none
  | text :: rest =>
    match Argument.of text with
    | .plain value => some (value, rest)
    | _ => none

/-- An equals sign between a letter and its value is left aside. -/
def attachedValue : List Char → String
  | '=' :: cs => String.ofList cs
  | cs => String.ofList cs

/-- Takes the letters behind a dash: flags one by one, until one takes a value. The value is the
rest of the letters, or the following argument. -/
def takeLetters (specs : List OptionSpec) (rest : List String) (f : Found) :
    List Char → Except Refusal (Found × List String)
  | [] => .ok (f, rest)
  | c :: cs =>
    match specs.find? (·.letter = some c) with
    | none => .error .usage
    | some spec =>
      match spec.kind with
      | .help => .error .help
      | .version => .error .version
      | .flag =>
        match f.addOption spec "" with
        | .error e => .error e
        | .ok f => takeLetters specs rest f cs
      | _ =>
        if cs.isEmpty then
          match followingValue? rest with
          | none => .error .usage
          | some (value, rest) => (f.addOption spec value).map (·, rest)
        else (f.addOption spec (attachedValue cs)).map (·, rest)

def takeLong (specs : List OptionSpec) (rest : List String) (f : Found) (name : String)
    (value : Option String) : Except Refusal (Found × List String) :=
  match specs.find? (·.name = name) with
  | none => .error .usage
  | some spec =>
    match spec.kind, value with
    | .help, none => .error .help
    | .version, none => .error .version
    | .flag, none => (f.addOption spec "").map (·, rest)
    | .help, some _ => .error .usage
    | .version, some _ => .error .usage
    | .flag, some _ => .error .usage
    | _, some value => (f.addOption spec value).map (·, rest)
    | _, none =>
      match followingValue? rest with
      | none => .error .usage
      | some (value, rest) => (f.addOption spec value).map (·, rest)

/-- Takes the options of a command and at most a number of arguments, in any order. The first
number bounds how many steps that may take. -/
def takeAll (specs : List OptionSpec) (most : Nat) :
    Nat → Found → List String → Except Refusal Found
  | _, f, [] => .ok f
  | 0, _, _ => .error .usage
  | n + 1, f, text :: rest =>
    match Argument.of text with
    | .escape =>
      if f.arguments.length + rest.length ≤ most then .ok (rest.foldl Found.addArgument f)
      else .error .usage
    | .plain text =>
      if f.arguments.length < most then takeAll specs most n (f.addArgument text) rest
      else .error .usage
    | .long name value =>
      match takeLong specs rest f name value with
      | .error e => .error e
      | .ok (f, rest) => takeAll specs most n f rest
    | .short letters =>
      match takeLetters specs rest f letters with
      | .error e => .error e
      | .ok (f, rest) => takeAll specs most n f rest

def helpOption : OptionSpec := ⟨"help", some 'h', .help⟩

def takeCommandLine (specs : List OptionSpec) (most : Nat) (args : List String) :
    Except Refusal Found :=
  takeAll (helpOption :: specs) most args.length Found.none args

def parseCommand (name : String) (args : List String) : Except Refusal Command :=
  if name = "checksum" then
    match takeCommandLine [] 1 args with
    | .error e => .error e
    | .ok f =>
      match f.arguments with
      | [file] => .ok (.checksum file)
      | _ => .error .usage
  else if name = "create" then
    match takeCommandLine [] 1 args with
    | .error e => .error e
    | .ok f => .ok (.create (f.arguments.headD "-"))
  else if name = "get" then
    match takeCommandLine [⟨"out", some 'o', .value⟩] 1 args with
    | .error e => .error e
    | .ok f =>
      match f.arguments with
      | [checksum] => .ok (.get checksum (f.option? "out"))
      | _ => .error .usage
  else if name = "analyze" then
    match takeCommandLine [⟨"json", none, .flag⟩] 1 args with
    | .error e => .error e
    | .ok f =>
      match f.arguments with
      | [checksum] => .ok (.analyze checksum (f.has "json"))
      | _ => .error .usage
  else if name = "list" then
    match takeCommandLine [] 0 args with
    | .error e => .error e
    | .ok _ => .ok .list
  else if name = "help" then
    match args with
    | [] => .error .help
    | [topic] =>
      if topic ∈ ["checksum", "create", "get", "analyze", "list", "help"] then .error .help
      else .error .usage
    | _ => .error .usage
  else .error .usage

def globalOptions : List OptionSpec :=
  [helpOption, ⟨"version", some 'V', .version⟩, ⟨"data-dir", none, .path⟩,
    ⟨"verbose", some 'v', .flag⟩]

/-- Reads options up to the command, and then the command. The first number bounds how many steps
that may take. -/
def parseGlobal : Nat → Found → List String → Except Refusal (Found × Command)
  | _, _, [] => .error .usage
  | 0, _, _ => .error .usage
  | n + 1, f, text :: rest =>
    match Argument.of text with
    | .escape => .error .usage
    | .plain name => (parseCommand name rest).map (f, ·)
    | .long name value =>
      match takeLong globalOptions rest f name value with
      | .error e => .error e
      | .ok (f, rest) => parseGlobal n f rest
    | .short letters =>
      match takeLetters globalOptions rest f letters with
      | .error e => .error e
      | .ok (f, rest) => parseGlobal n f rest

/-- Reads a command line. A data directory that is not named there may be named in the environment;
neither may be empty. -/
def parse (args : List String) (dataDirVariable : Option String) : Except Refusal Invocation :=
  match parseGlobal args.length Found.none args with
  | .error e => .error e
  | .ok (f, command) =>
    match f.option? "data-dir" with
    | some dir => .ok ⟨some dir, f.has "verbose", command⟩
    | none =>
      match dataDirVariable with
      | some dir =>
        if dir.isEmpty then .error .usage else .ok ⟨some dir, f.has "verbose", command⟩
      | none => .ok ⟨none, f.has "verbose", command⟩

end ContractHost.Cli
