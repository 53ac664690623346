import ContractHost.Proofs.Cli.Message
import ContractHost.Proofs.CodeStore.Listing

/-!
The exit code of a run, given by the step at which its command fails.

What the first failing step of a command is does not depend on any wording
(`FirstFailure`), and it is told for every file system. The exit code is that of the
step, unless the line about it quotes a path or the operating system with one of the
words in it by which exit codes are told apart (`exitCode_run`).
-/

namespace ContractHost.Cli

inductive Step where
  /-- The input file, or the standard input, could not be read. -/
  | input (e : OsError)
  /-- The text is no checksum. -/
  | checksum
  /-- The code to be stored is empty. -/
  | empty
  /-- There is no such code in the store. -/
  | missing
  /-- The files of the store could not be used. -/
  | storage
  /-- The code could not be written where it was asked for. -/
  | output (path : String) (e : OsError)

namespace Step

/-- The exit code for a step: 2 for what was put in, 3 for what was not found, 1 for all else. -/
def code : Step → UInt32
  | .input _ | .checksum | .empty => 2
  | .missing => 3
  | .storage | .output _ _ => 1

/-- What the line about a failure says in words that are not its own. -/
def quoted : Step → List String
  | .input e => [e.message]
  | .output path e => [path, e.message]
  | _ => []

def Quotes (s : Step) (mark : String) : Prop := ∃ text ∈ s.quoted, Names mark text

instance (s : Step) (mark : String) : Decidable (s.Quotes mark) :=
  inferInstanceAs (Decidable (∃ text ∈ s.quoted, Names mark text))

/-- The exit code that comes of a step. The words by which codes are told apart are looked for in
what is quoted as well. -/
def told (s : Step) : UInt32 :=
  if s.Quotes "not found" then 3 else if ∃ hint ∈ hints, s.Quotes hint then 2 else s.code

theorem told_of_quoted {s : Step} (none : s.quoted = []) : s.told = s.code := by
  simp [told, Quotes, none]

theorem told_input (e : OsError) :
    (input e).told = if Names "not found" e.message then 3 else 2 := by
  simp [told, Quotes, quoted, code]

theorem told_output (path : String) (e : OsError) : (output path e).told =
    if Names "not found" path ∨ Names "not found" e.message then 3
    else if ∃ hint ∈ hints, Names hint path ∨ Names hint e.message then 2 else 1 := by
  simp [told, Quotes, quoted, code]

theorem told_ne_zero (s : Step) : s.told ≠ 0 := by
  have code : s.code ≠ 0 := by
    cases s <;> exact nofun
  unfold told
  split
  · exact nofun
  split
  · exact nofun
  · exact code

/-- The failures that commands give for a step. -/
inductive Reported : Step → Failure → Prop
  | stdin (e : OsError) : Reported (.input e) (.readStdin e)
  | file (e : OsError) : Reported (.input e) (.readFile e)
  | checksum (e : Checksum.Error) : Reported .checksum (.parseChecksum e)
  | empty : Reported .empty (.store (.invalidInput "bytecode must not be empty"))
  | missing (c : Checksum) : Reported .missing (.store (.notFound c))
  | storage (action : String) (e : OsError) : Reported .storage (.store (.storage action e))
  | output (path : String) (e : OsError) : Reported (.output path e) (.writeFile path e)

/-- The line about a failure gives the exit code that comes of its step. -/
theorem Reported.exitCode {s : Step} {f : Failure} (reported : s.Reported f) :
    Cli.exitCode f.message = s.told := by
  cases reported with
  | stdin e =>
      rw [told_input]
      exact exitCode_input (.inl rfl) e
  | file e =>
      rw [told_input]
      exact exitCode_input (.inr rfl) e
  | checksum e =>
      rw [told_of_quoted rfl]
      exact exitCode_checksum e
  | empty =>
      rw [told_of_quoted rfl]
      exact exitCode_empty
  | missing c =>
      rw [told_of_quoted rfl]
      exact exitCode_missing c
  | storage action e =>
      rw [told_of_quoted rfl]
      exact exitCode_storage action e
  | output path e =>
      rw [told_output]
      exact exitCode_write path e

end Step

def checksumText? : Command → Option String
  | .get text _ | .analyze text _ => some text
  | _ => none

section Commands

variable {σ : Type} [FileSystem (StateM σ)] (stdin : StateM σ (Except OsError Bytes))
  (dataDir : String)

def source (file : String) : StateM σ (Except OsError Bytes) :=
  if file = "-" then stdin else FileSystem.read (Path.ofText file)

def Opened (d d₁ : σ) : Prop :=
  (FileSystem.createDirs (CodeStore.within dataDir).root : StateM σ _) d = (.ok (), d₁)

/-- The first step of a command that fails: all steps before it succeeded. -/
inductive FirstFailure : Command → σ → Step → Prop
  | unreadFile {file : String} {e : OsError} {d d₁ : σ} :
    source stdin file d = (.error e, d₁) → FirstFailure (.checksum file) d (.input e)
  | unopened {command : Command} {e : OsError} {d d₁ : σ} : (∀ file, command ≠ .checksum file) →
    (FileSystem.createDirs (CodeStore.within dataDir).root : StateM σ _) d = (.error e, d₁) →
    FirstFailure command d .storage
  | unreadCode {file : String} {e : OsError} {d d₁ d₂ : σ} : Opened dataDir d d₁ →
    source stdin file d₁ = (.error e, d₂) → FirstFailure (.create file) d (.input e)
  | emptyCode {file : String} {d d₁ d₂ : σ} : Opened dataDir d d₁ →
    source stdin file d₁ = (.ok [], d₂) → FirstFailure (.create file) d .empty
  | unstored {file action : String} {code : Bytes} {e : OsError} {d d₁ d₂ d₃ : σ} :
    Opened dataDir d d₁ → source stdin file d₁ = (.ok code, d₂) → code ≠ [] →
    (CodeStore.within dataDir).create (m := StateM σ) code d₂ = (.error (.storage action e), d₃) →
    FirstFailure (.create file) d .storage
  | noChecksum {command : Command} {text : String} {e : Checksum.Error} {d d₁ : σ} :
    Opened dataDir d d₁ → checksumText? command = some text → Checksum.parse text = .error e →
    FirstFailure command d .checksum
  | notStored {text : String} {out : Option String} {c c' : Checksum} {d d₁ d₂ : σ} :
    Opened dataDir d d₁ → Checksum.parse text = .ok c →
    (CodeStore.within dataDir).getCode (m := StateM σ) c d₁ = (.error (.notFound c'), d₂) →
    FirstFailure (.get text out) d .missing
  | unfetched {text action : String} {out : Option String} {c : Checksum} {e : OsError}
      {d d₁ d₂ : σ} :
    Opened dataDir d d₁ → Checksum.parse text = .ok c →
    (CodeStore.within dataDir).getCode (m := StateM σ) c d₁ = (.error (.storage action e), d₂) →
    FirstFailure (.get text out) d .storage
  | unwritten {text path : String} {c : Checksum} {code : Bytes} {e : OsError} {d d₁ d₂ d₃ : σ} :
    Opened dataDir d d₁ → Checksum.parse text = .ok c →
    (CodeStore.within dataDir).getCode (m := StateM σ) c d₁ = (.ok code, d₂) →
    (FileSystem.write (Path.ofText path) code : StateM σ _) d₂ = (.error e, d₃) →
    FirstFailure (.get text (some path)) d (.output path e)
  | notAnalysed {text : String} {json : Bool} {c c' : Checksum} {d d₁ d₂ : σ} :
    Opened dataDir d d₁ → Checksum.parse text = .ok c →
    (CodeStore.within dataDir).analyzeCode (m := StateM σ) c d₁ = (.error (.notFound c'), d₂) →
    FirstFailure (.analyze text json) d .missing
  | unanalysed {text action : String} {json : Bool} {c : Checksum} {e : OsError} {d d₁ d₂ : σ} :
    Opened dataDir d d₁ → Checksum.parse text = .ok c →
    (CodeStore.within dataDir).analyzeCode (m := StateM σ) c d₁ = (.error (.storage action e), d₂) →
    FirstFailure (.analyze text json) d .storage
  | unlisted {action : String} {e : OsError} {d d₁ d₂ : σ} : Opened dataDir d d₁ →
    (CodeStore.within dataDir).list (m := StateM σ) d₁ = (.error (.storage action e), d₂) →
    FirstFailure .list d .storage

end Commands

section Stores

variable {σ : Type} [FileSystem (StateM σ)] {s : CodeStore} {c : Checksum} {e : StoreError}
  {d d' : σ}

theorem getCode_error (failed : s.getCode (m := StateM σ) c d = (.error e, d')) :
    (∃ c', e = .notFound c') ∨ ∃ action cause, e = .storage action cause := by
  rcases h : (FileSystem.read (s.codePath c) : StateM σ _) d with ⟨read, d₁⟩
  simp only [CodeStore.getCode, bind, StateT.bind, h] at failed
  cases read with
  | ok b => cases failed
  | error cause =>
      cases failed
      by_cases absent : cause.isNotFound
      · rw [if_pos absent]
        exact .inl ⟨c, rfl⟩
      · rw [if_neg absent]
        exact .inr ⟨_, _, rfl⟩

theorem manifest_error (failed : s.manifest (m := StateM σ) c d = (.error e, d')) :
    ∃ action cause, e = .storage action cause := by
  rcases h : (FileSystem.read (s.manifestPath c) : StateM σ _) d with ⟨read, d₁⟩
  simp only [CodeStore.manifest, bind, StateT.bind, h] at failed
  cases read with
  | ok b => cases failed
  | error cause =>
      by_cases absent : cause.isNotFound
      · simp only [absent, if_true] at failed
        cases failed
      · simp only [absent] at failed
        cases failed
        exact ⟨_, _, rfl⟩

theorem analyzeCode_error (failed : s.analyzeCode (m := StateM σ) c d = (.error e, d')) :
    (∃ c', e = .notFound c') ∨ ∃ action cause, e = .storage action cause := by
  rcases h : s.contains (m := StateM σ) c d with ⟨there, d₁⟩
  rcases h₂ : s.manifest (m := StateM σ) c d₁ with ⟨recorded, d₂⟩
  rcases h₃ : s.getCode (m := StateM σ) c d₂ with ⟨read, d₃⟩
  simp only [CodeStore.analyzeCode, bind, StateT.bind, h] at failed
  cases there with
  | false =>
      cases failed
      exact .inl ⟨c, rfl⟩
  | true =>
      simp only [if_true, bind, StateT.bind, h₂] at failed
      rcases recorded with cause | _ | m
      · cases failed
        exact .inr (manifest_error h₂)
      · simp only [bind, StateT.bind, h₃] at failed
        cases read with
        | ok code => cases failed
        | error cause =>
            cases failed
            exact getCode_error h₃
      · cases failed

theorem create_error {code : Bytes} (filled : code ≠ [])
    (failed : s.create (m := StateM σ) code d = (.error e, d')) :
    ∃ action cause, e = .storage action cause := by
  have some : code.isEmpty = false := List.isEmpty_eq_false_iff.2 filled
  rcases h₁ : (FileSystem.createDirs (s.codeDir (.of code)) : StateM σ _) d with ⟨made, d₁⟩
  rcases h₂ : (FileSystem.write (s.codePath (.of code)) code : StateM σ _) d₁ with ⟨first, d₂⟩
  rcases h₃ : (FileSystem.write (s.manifestPath (.of code))
    (Wire.toJson .pretty (Manifest.of code)) : StateM σ _) d₂ with ⟨second, d₃⟩
  simp only [CodeStore.create, some, Bool.false_eq_true, if_false, bind, StateT.bind, h₁] at failed
  cases made with
  | error cause =>
      cases failed
      exact ⟨_, _, rfl⟩
  | ok _ =>
  simp only [bind, StateT.bind, h₂] at failed
  cases first with
  | error cause =>
      cases failed
      exact ⟨_, _, rfl⟩
  | ok _ =>
  simp only [bind, StateT.bind, h₃] at failed
  cases second with
  | error cause =>
      cases failed
      exact ⟨_, _, rfl⟩
  | ok _ => cases failed

theorem list_error (failed : s.list (m := StateM σ) d = (.error e, d')) :
    ∃ action cause, e = .storage action cause := by
  rcases h : (FileSystem.list s.root : StateM σ _) d with ⟨names, d₁⟩
  simp only [CodeStore.list, bind, StateT.bind, h] at failed
  cases names with
  | error cause =>
      cases failed
      exact ⟨_, _, rfl⟩
  | ok names => cases failed

end Stores

section Runs

variable {σ : Type} [FileSystem (StateM σ)] {stdin : StateM σ (Except OsError Bytes)}
  {dataDir file : String} {colour : Bool} {command : Command} {step : Step} {d d' : σ}

theorem openIn_of_opened (opened : Opened dataDir d d') :
    CodeStore.openIn (m := StateM σ) dataDir d = (.ok (.within dataDir), d') := by
  simp only [CodeStore.openIn, bind, StateT.bind, show _ = _ from opened]
  rfl

theorem openIn_of_error {e : OsError}
    (failed : (FileSystem.createDirs (CodeStore.within dataDir).root : StateM σ _) d =
      (.error e, d')) :
    CodeStore.openIn (m := StateM σ) dataDir d =
      (.error (.storage ("create " ++ (CodeStore.within dataDir).root.text) e), d') := by
  simp only [CodeStore.openIn, bind, StateT.bind, failed]
  rfl

theorem readInput_of_ok {b : Bytes} (read : source stdin file d = (.ok b, d')) :
    readInput stdin file d = (.ok b, d') := by
  unfold source at read
  unfold readInput
  split at read
  · next dash =>
    simp only [dash, if_true, bind, StateT.bind, read]
    rfl
  · next named =>
    simp only [named, if_false, bind, StateT.bind, read]
    rfl

theorem readInput_of_error {e : OsError} (failed : source stdin file d = (.error e, d')) :
    ∃ f, readInput stdin file d = (.error f, d') ∧ (Step.input e).Reported f := by
  unfold source at failed
  unfold readInput
  split at failed
  · next dash =>
    refine ⟨_, ?_, .stdin e⟩
    simp only [dash, if_true, bind, StateT.bind, failed]
    rfl
  · next named =>
    refine ⟨_, ?_, .file e⟩
    simp only [named, if_false, bind, StateT.bind, failed]
    rfl

/-- A step that fails first makes the command fail, and the failure is one of that step. -/
theorem runCommand_of_firstFailure (first : FirstFailure stdin dataDir command d step) :
    ∃ f, (runCommand colour stdin dataDir command d).1 = .error f ∧ step.Reported f := by
  cases first with
  | unreadFile failed =>
      obtain ⟨f, read, reported⟩ := readInput_of_error failed
      refine ⟨f, ?_, reported⟩
      simp only [runCommand, bind, StateT.bind, read]
      rfl
  | @unopened _ e _ _ kind failed =>
      refine ⟨_, ?_, .storage ("create " ++ (CodeStore.within dataDir).root.text) e⟩
      cases command with
      | checksum file => exact absurd rfl (kind file)
      | _ =>
        simp only [runCommand, bind, StateT.bind, openIn_of_error failed]
        rfl
  | unreadCode opened failed =>
      obtain ⟨f, read, reported⟩ := readInput_of_error failed
      refine ⟨f, ?_, reported⟩
      simp only [runCommand, bind, StateT.bind, openIn_of_opened opened, read]
      rfl
  | emptyCode opened read =>
      refine ⟨_, ?_, .empty⟩
      simp only [runCommand, bind, StateT.bind, openIn_of_opened opened, readInput_of_ok read]
      rfl
  | @unstored _ action _ e _ _ _ _ opened read filled failed =>
      refine ⟨_, ?_, .storage action e⟩
      simp only [runCommand, runCreate, bind, StateT.bind, openIn_of_opened opened,
        readInput_of_ok read, failed]
      rfl
  | @noChecksum _ _ e _ _ opened asked bad =>
      refine ⟨_, ?_, .checksum e⟩
      cases command with
      | get text _ | analyze text _ =>
          cases asked
          simp only [runCommand, bind, StateT.bind, openIn_of_opened opened, bad]
          rfl
      | _ => cases asked
  | @notStored _ _ _ c _ _ _ opened parsed missing =>
      refine ⟨_, ?_, .missing c⟩
      simp only [runCommand, runGet, bind, StateT.bind, openIn_of_opened opened, parsed, missing]
      rfl
  | @unfetched _ action _ _ e _ _ _ opened parsed failed =>
      refine ⟨_, ?_, .storage action e⟩
      simp only [runCommand, runGet, bind, StateT.bind, openIn_of_opened opened, parsed, failed]
      rfl
  | @unwritten _ path _ _ e _ _ _ _ opened parsed fetched failed =>
      refine ⟨_, ?_, .output path e⟩
      simp only [runCommand, runGet, bind, StateT.bind, openIn_of_opened opened, parsed, fetched,
        failed]
      rfl
  | @notAnalysed _ _ _ c _ _ _ opened parsed missing =>
      refine ⟨_, ?_, .missing c⟩
      simp only [runCommand, runAnalyze, bind, StateT.bind, openIn_of_opened opened, parsed,
        missing]
      rfl
  | @unanalysed _ action _ _ e _ _ _ opened parsed failed =>
      refine ⟨_, ?_, .storage action e⟩
      simp only [runCommand, runAnalyze, bind, StateT.bind, openIn_of_opened opened, parsed, failed]
      rfl
  | @unlisted action e _ _ _ opened failed =>
      refine ⟨_, ?_, .storage action e⟩
      simp only [runCommand, runList, bind, StateT.bind, openIn_of_opened opened, failed]
      rfl

section Failing

variable {f : Failure} {text : String} {d₁ : σ}

theorem firstFailure_checksum
    (failed : (runCommand colour stdin dataDir (.checksum file) d).1 = .error f) :
    ∃ step, FirstFailure stdin dataDir (.checksum file) d step := by
  rcases taken : source stdin file d with ⟨read, d₁⟩
  cases read with
  | error e => exact ⟨_, .unreadFile taken⟩
  | ok code =>
      simp only [runCommand, bind, StateT.bind, readInput_of_ok taken] at failed
      cases failed

theorem firstFailure_create (opened : Opened dataDir d d₁)
    (failed : (runCommand colour stdin dataDir (.create file) d).1 = .error f) :
    ∃ step, FirstFailure stdin dataDir (.create file) d step := by
  rcases taken : source stdin file d₁ with ⟨read, d₂⟩
  cases read with
  | error e => exact ⟨_, .unreadCode opened taken⟩
  | ok code =>
  by_cases empty : code = []
  · subst empty
    exact ⟨_, .emptyCode opened taken⟩
  rcases created : (CodeStore.within dataDir).create (m := StateM σ) code d₂ with ⟨stored, d₃⟩
  cases stored with
  | error e =>
      obtain ⟨action, cause, rfl⟩ := create_error empty created
      exact ⟨_, .unstored opened taken empty created⟩
  | ok c =>
      simp only [runCommand, runCreate, bind, StateT.bind, openIn_of_opened opened,
        readInput_of_ok taken, created] at failed
      cases failed

theorem firstFailure_get {out : Option String} (opened : Opened dataDir d d₁)
    (failed : (runCommand colour stdin dataDir (.get text out) d).1 = .error f) :
    ∃ step, FirstFailure stdin dataDir (.get text out) d step := by
  cases parsed : Checksum.parse text with
  | error e => exact ⟨_, .noChecksum opened rfl parsed⟩
  | ok c =>
  rcases fetched : (CodeStore.within dataDir).getCode (m := StateM σ) c d₁ with ⟨found, d₂⟩
  cases found with
  | error e =>
      obtain ⟨c', rfl⟩ | ⟨action, cause, rfl⟩ := getCode_error fetched
      · exact ⟨_, .notStored opened parsed fetched⟩
      · exact ⟨_, .unfetched opened parsed fetched⟩
  | ok code =>
  simp only [runCommand, runGet, bind, StateT.bind, openIn_of_opened opened, parsed,
    fetched] at failed
  cases out with
  | none => cases failed
  | some path =>
  rcases left : (FileSystem.write (Path.ofText path) code : StateM σ _) d₂ with ⟨written, d₃⟩
  cases written with
  | error e => exact ⟨_, .unwritten opened parsed fetched left⟩
  | ok _ =>
      simp only [bind, StateT.bind, left] at failed
      cases failed

theorem firstFailure_analyze {json : Bool} (opened : Opened dataDir d d₁)
    (failed : (runCommand colour stdin dataDir (.analyze text json) d).1 = .error f) :
    ∃ step, FirstFailure stdin dataDir (.analyze text json) d step := by
  cases parsed : Checksum.parse text with
  | error e => exact ⟨_, .noChecksum opened rfl parsed⟩
  | ok c =>
  rcases analysed : (CodeStore.within dataDir).analyzeCode (m := StateM σ) c d₁ with ⟨report, d₂⟩
  cases report with
  | error e =>
      obtain ⟨c', rfl⟩ | ⟨action, cause, rfl⟩ := analyzeCode_error analysed
      · exact ⟨_, .notAnalysed opened parsed analysed⟩
      · exact ⟨_, .unanalysed opened parsed analysed⟩
  | ok r =>
      simp only [runCommand, runAnalyze, bind, StateT.bind, openIn_of_opened opened, parsed,
        analysed] at failed
      cases json <;> cases failed

theorem firstFailure_list (opened : Opened dataDir d d₁)
    (failed : (runCommand colour stdin dataDir .list d).1 = .error f) :
    ∃ step, FirstFailure stdin dataDir .list d step := by
  rcases listed : (CodeStore.within dataDir).list (m := StateM σ) d₁ with ⟨all, d₂⟩
  cases all with
  | error e =>
      obtain ⟨action, cause, rfl⟩ := list_error listed
      exact ⟨_, .unlisted opened listed⟩
  | ok all =>
      simp only [runCommand, runList, bind, StateT.bind, openIn_of_opened opened, listed] at failed
      cases all <;> cases failed

theorem firstFailure_of_runCommand
    (failed : (runCommand colour stdin dataDir command d).1 = .error f) :
    ∃ step, FirstFailure stdin dataDir command d step := by
  rcases opened : (FileSystem.createDirs (CodeStore.within dataDir).root : StateM σ _) d
    with ⟨made, d₁⟩
  cases command with
  | checksum file => exact firstFailure_checksum failed
  | create file =>
      cases made with
      | error e => exact ⟨_, .unopened nofun opened⟩
      | ok _ => exact firstFailure_create opened failed
  | get text out =>
      cases made with
      | error e => exact ⟨_, .unopened nofun opened⟩
      | ok _ => exact firstFailure_get opened failed
  | analyze text json =>
      cases made with
      | error e => exact ⟨_, .unopened nofun opened⟩
      | ok _ => exact firstFailure_analyze opened failed
  | list =>
      cases made with
      | error e => exact ⟨_, .unopened nofun opened⟩
      | ok _ => exact firstFailure_list opened failed

end Failing

def resultCode : Except Failure Report → UInt32
  | .ok _ => 0
  | .error f => exitCode f.message

theorem run_code {args : List String} {env : String → Option String} {asked : Invocation}
    (accepted : parse args (env "WRAPVM_DATA_DIR") = .ok asked) (d : σ) :
    (run args env stdin d).1.code = resultCode (runCommand (forcesColour (env "CLICOLOR_FORCE"))
      stdin (asked.dataDir.getD (VmConfig.ofEnv env).dataDir) asked.command d).1 := by
  rcases ran : runCommand (forcesColour (env "CLICOLOR_FORCE")) stdin
    (asked.dataDir.getD (VmConfig.ofEnv env).dataDir) asked.command d with ⟨result, d'⟩
  simp only [run, accepted, bind, StateT.bind, ran]
  cases result <;> rfl

/-- The exit code of a command line that is understood, on every file system. It is 0 exactly if no
step of the command fails, and otherwise the code of the first step that does, but for one thing: if
the line about the failure quotes a path or the operating system with the words "not found" in it,
the code is 3, and if it quotes them with "read ", "parse " or "invalid " in it, the code is 2. Only
a failure to read the input, and one to write where the code was asked for, are quoted so. -/
theorem exitCode_run {args : List String} {env : String → Option String} {asked : Invocation}
    (accepted : parse args (env "WRAPVM_DATA_DIR") = .ok asked) (d : σ) :
    let dataDir := asked.dataDir.getD (VmConfig.ofEnv env).dataDir
    let exit := (run args env stdin d).1.code
    (exit = 0 ↔ ¬ ∃ step, FirstFailure stdin dataDir asked.command d step) ∧
    ∀ step, FirstFailure stdin dataDir asked.command d step →
      exit = if step.Quotes "not found" then 3
        else if ∃ hint ∈ hints, step.Quotes hint then 2 else step.code := by
  intro dataDir exit
  have ran : exit = resultCode _ := run_code accepted d
  have told (step : Step) (first : FirstFailure stdin dataDir asked.command d step) :
      exit = step.told := by
    obtain ⟨f, failed, reported⟩ := runCommand_of_firstFailure first
    rw [ran, failed]
    exact reported.exitCode
  refine ⟨⟨?_, fun none => ?_⟩, told⟩
  · rintro success ⟨step, first⟩
    exact step.told_ne_zero ((told step first).symm.trans success)
  · cases result : (runCommand (forcesColour (env "CLICOLOR_FORCE")) stdin dataDir
      asked.command d).1 with
    | ok r => rw [ran, result, resultCode]
    | error f => exact absurd (firstFailure_of_runCommand result) none

end Runs

section Fetching

open Sample

def closedInput : StateM Disk (Except OsError Bytes) := fun d => (.ok [], d)

def fetch (path : String) : List String :=
  ["--data-dir", "data", "get", filed.toHex, "-o", path]

def looked : Disk := (shelved.createDirs shelf.root).2

theorem unwritten {path : String} {e : OsError}
    (refused : (looked.write (Path.ofText path) [97]).1 = .error e) :
    FirstFailure closedInput "data" (.get filed.toHex (some path)) shelved (.output path e) := by
  have made : (shelved.createDirs shelf.root).1 = .ok () := by decide +kernel
  have opened : Opened "data" shelved looked := Prod.ext made rfl
  have parsed : Checksum.parse filed.toHex = .ok filed := by decide +kernel
  have found : (shelf.getCode (m := StateM Disk) filed looked).1 = .ok [97] := by decide +kernel
  have fetched : shelf.getCode (m := StateM Disk) filed looked = (.ok [97], looked) :=
    Prod.ext found (shelf.getCode_snd _ _)
  exact .unwritten opened parsed fetched (Prod.ext refused rfl)

/-- A file in a directory that is not there cannot be written, which is a failure of the other
kind. -/
theorem exitCode_run_unwritten :
    parse (fetch "new/out") none =
      .ok ⟨some "data", false, .get filed.toHex (some "new/out")⟩ ∧
    (run (fetch "new/out") (fun _ => none) closedInput shelved).1.code = 1 := by
  have accepted : parse (fetch "new/out") none =
      .ok ⟨some "data", false, .get filed.toHex (some "new/out")⟩ := by decide +kernel
  have first : FirstFailure closedInput "data" (.get filed.toHex (some "new/out")) shelved
      (.output "new/out" .notFound) := unwritten (by decide +kernel)
  obtain ⟨-, told⟩ := @exitCode_run _ _ closedInput _ (fun _ => none) _ accepted shelved
  exact ⟨accepted, (told _ first).trans (by decide +kernel)⟩

/-- The same failure, with other words in the path, goes by as a code that was not found. -/
theorem unwritten_as_missing :
    FirstFailure closedInput "data" (.get filed.toHex (some "not found/out")) shelved
      (.output "not found/out" .notFound) ∧
    parse (fetch "not found/out") none =
      .ok ⟨some "data", false, .get filed.toHex (some "not found/out")⟩ ∧
    (run (fetch "not found/out") (fun _ => none) closedInput shelved).1.code = 3 :=
  ⟨unwritten (by decide +kernel), by decide +kernel, by decide +kernel⟩

end Fetching

end ContractHost.Cli
