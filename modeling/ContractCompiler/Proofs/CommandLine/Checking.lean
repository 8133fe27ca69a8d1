import ContractCompiler.CommandLine.Run
import ContractCompiler.Proofs.Contract.Indentation
import ContractCompiler.Proofs.Output.Buffers

/-!
# Checking accepts what compiling accepts

Neither the indentation nor a sink that takes everything decides how compiling a file ends. So the command that only checks a
file and the command that prints its contracts accept the same files, refuse the others for the same reason, and agree on the
number of contracts.
-/

namespace ContractCompiler

variable {σ τ : Type}

/-! ## How compiling ends -/

/-- With sinks that take everything, neither they nor the indentation decide how writing classes ends and what is noted. -/
theorem emitClasses_open {sink : Sink σ} {sink' : Sink τ} {I : σ → Prop} {J : τ → Prop} (hsink : sink.Open I)
    (hsink' : sink'.Open J) (b : Bindings) (unit unit' : String) (decls : List ClassDecl) :
    ∀ held held', I held → J held' →
      (emitClasses sink unit b decls held).result = (emitClasses sink' unit' b decls held').result ∧
      (emitClasses sink unit b decls held).journal = (emitClasses sink' unit' b decls held').journal := by
  induction decls with
  | nil =>
    intro held held' _ _
    exact ⟨rfl, rfl⟩
  | cons decl decls ih =>
    intro held held' hheld hheld'
    have hname := decl.render_indent b unit unit'
    have hevents := decl.renderEvents_indent b unit unit'
    unfold emitClasses
    cases hc : decl.render unit b <;> cases hc' : decl.render unit' b <;> rw [hc, hc'] at hname
    case error.error e e' =>
      cases Except.error.inj hname
      exact ⟨rfl, hevents⟩
    case error.ok => cases hname
    case ok.error => cases hname
    case ok.ok c c' =>
      have hsame : c.name = c'.name := Except.ok.inj hname
      obtain ⟨hresult, hjournal⟩ := ih _ _ (hsink.keeps held c hheld) (hsink'.keeps held' c' hheld')
      simp only [hsink.takes held c hheld, hsink'.takes held' c' hheld', hsink.quiet held c hheld,
        hsink'.quiet held' c' hheld', hresult, hjournal, hevents, hsame, and_self]

/-- With sinks that take everything, neither they nor the indentation decide how compiling a file ends and what is noted. -/
theorem compilePath_open {sink : Sink σ} {sink' : Sink τ} {I : σ → Prop} {J : τ → Prop} (hsink : sink.Open I)
    (hsink' : sink'.Open J) (files : Files) (path : String) (options : Options) (unit : String) {held : σ} {held' : τ}
    (hheld : I held) (hheld' : J held') :
    let run := compilePath files path options sink held
    let run' := compilePath files path { options with indent := unit } sink' held'
    run.result = run'.result ∧ run.journal = run'.journal := by
  unfold compilePath compileLoaded
  cases (loadPath files path).result with
  | error e => exact ⟨rfl, rfl⟩
  | ok loaded =>
    obtain ⟨hresult, hjournal⟩ := emitClasses_open hsink hsink' (loaded.file.bindings options.receiver) options.indent unit
      (ClassTable.ofFile loaded.file).classes held held' hheld hheld'
    simp only [compileFile, hresult, hjournal, and_self]

/-- A run that ends well has written contracts with the names it gives, and its sink has taken them. -/
theorem exists_takes_of_compilePath {sink : Sink σ} {files : Files} {path : String} {options : Options} {held : σ}
    {names : List String} (h : (compilePath files path options sink held).result = .ok names) :
    ∃ contracts : List Contract, contracts.map Contract.name = names ∧
      sink.Takes held contracts (compilePath files path options sink held).sink := by
  unfold compilePath compileLoaded at h ⊢
  cases hload : (loadPath files path).result with
  | error e =>
    rw [hload] at h
    cases h
  | ok loaded =>
    simp only [hload, compileFile] at h ⊢
    obtain ⟨contracts, houtcome, -, -⟩ := emitClasses_recording sink options.indent
      (loaded.file.bindings options.receiver) (ClassTable.ofFile loaded.file).classes held []
    generalize emitClasses sink options.indent (loaded.file.bindings options.receiver)
      (ClassTable.ofFile loaded.file).classes held = run at h houtcome ⊢
    obtain ⟨result, after, journal⟩ := run
    dsimp only at h houtcome ⊢
    cases houtcome with
    | finished hwritten htakes =>
      cases Except.ok.inj h
      exact ⟨contracts, Written.names hwritten, htakes⟩
    | unwritten => cases h
    | refused => cases h

/-! ## Files in the working directory -/

/-- A name without a slash is a path of one part. -/
theorem pathStart_of_name {name : String} (h : '/' ∉ name.toList) : pathStart name = ([], [name]) := by
  have hparts : name.toList.splitOn '/' = [name.toList] := by
    have hapart : ∀ part ∈ [name.toList], '/' ∉ part := by simpa using h
    simpa using List.splitOn_intercalate '/' hapart (by simp)
  have hroot : name.startsWith "/" = false := by
    rw [String.startsWith_string_eq_false_iff]
    intro hstart
    exact h (hstart.subset (by simp))
  simp [pathStart, hparts, hroot]

/-- What is read under a name in the working directory. -/
theorem Files.readBytes_of_name {fs : Files} {name : String} (hslash : '/' ∉ name.toList) (hnul : '\x00' ∉ name.toList)
    (hsize : name.utf8ByteSize ≤ 255) (hmoves : movePart [] name = [name]) (hroot : fs.lookup [] = none) :
    fs.readBytes name = match fs.lookup [name] with
      | some bytes => .ok bytes
      | none => if fs.isDirectory [name] then .error .isADirectory else .error .notFound := by
  have hne : name ≠ "" := by
    rintro rfl
    cases hmoves
  have hplace : fs.walk [] [name] = .ok [name] := by
    simp [walk, hroot, isDirectory, hsize, maxPartSize, hmoves]
  have hlong : ¬ maxPathSize < name.utf8ByteSize := by
    unfold maxPathSize
    omega
  unfold readBytes
  simp only [String.contains_char_eq, hnul, hne, hlong, pathStart_of_name hslash, decide_false,
    Bool.false_eq_true, if_false]
  show (fs.walk [] [name] >>= _) = _
  rw [hplace]
  rfl

/-! ## The two commands -/

namespace CommandLine

/-- A contract as it is printed. -/
def Format.printed : Format → Contract → String
  | .text => Contract.text
  | .json => Contract.record

/-- Runs that end in the same way and note the same are told of in the same way. -/
theorem outcome_errors_eq {debug : Bool} {files : Files} {file : String} {run : Run Failure σ} {run' : Run Failure τ}
    (hresult : run.result = run'.result) (hjournal : run.journal = run'.journal) (output output' : String)
    (notes : List String) (after after' : Files) :
    (outcome debug files file run output notes after).errors =
      (outcome debug files file run' output' notes after').errors := by
  unfold outcome
  rw [hresult, hjournal]
  cases run'.result <;> rfl

/-- A run that succeeds ends with status 0 and the output it was given. -/
theorem outcome_of_ok {debug : Bool} {files : Files} {file : String} {run : Run Failure σ} {names : List String}
    (h : run.result = .ok names) (output : String) (notes : List String) (after : Files) :
    outcome debug files file run output notes after = ⟨0, output, journalText debug run.journal ++ ended notes, after⟩ := by
  rw [outcome, h]

/-- A run that fails ends with status 1. -/
theorem status_of_error {debug : Bool} {files : Files} {file : String} {run : Run Failure σ} {failure : Failure}
    (h : run.result = .error failure) (output : String) (notes : List String) (after : Files) :
    (outcome debug files file run output notes after).status = 1 := by
  rw [outcome, h]

/-- What compiling a file to standard output leaves behind. -/
theorem compileTo_printed (debug : Bool) (files : Files) (file : String) (options : Options) (format : Format) :
    compileTo debug files file options (.printed format) =
      let run := compilePath files file options (Sink.lines format.printed) (Buffer.empty none)
      outcome debug files file run run.sink.text [] files := by
  cases format <;> rfl

/-- The bytes of ended lines are those of the lines and of their line breaks. -/
theorem utf8Bytes_ended (render : Contract → String) (contracts : List Contract) :
    Text.utf8Bytes (ended (contracts.map render)) = contracts.flatMap (Contract.lineBytes render) := by
  induction contracts with
  | nil => rfl
  | cons c contracts ih =>
    have hjoin : ended ((c :: contracts).map render) = (render c ++ "\n") ++ ended (contracts.map render) := by
      simp [ended]
    rw [hjoin, Text.utf8Bytes_append, Text.utf8Bytes_append, ih, List.flatMap_cons, Contract.lineBytes]

/-- The contracts of a run that ends well are on standard output, each with its line break. -/
theorem exists_printed_of_compilePath {files : Files} {file : String} {options : Options} {render : Contract → String}
    {names : List String} (h : (compilePath files file options (Sink.lines render) (Buffer.empty none)).result = .ok names) :
    ∃ contracts : List Contract, contracts.map Contract.name = names ∧
      (compilePath files file options (Sink.lines render) (Buffer.empty none)).sink.text = ended (contracts.map render) := by
  obtain ⟨contracts, hnames, htakes⟩ := exists_takes_of_compilePath h
  have hbytes := Sink.bytes_of_takes htakes rfl
  refine ⟨contracts, hnames, ?_⟩
  rw [Buffer.text, hbytes, ← utf8Bytes_ended]
  exact Text.decodeLossy_utf8Bytes _

/-- Without a directory in its way, compiling prints. -/
theorem task_compile {config : Config} {format : Format} (hprinted : format = .text → config.build.outDir = none)
    (file : String) (indent : Option String) :
    (Command.compile file none format indent).task config =
      .ok ⟨file, { config.options with indent := indent.getD config.options.indent }, .printed format⟩ := by
  cases format with
  | text => simp [Command.task, hprinted rfl]
  | json => rfl

/-- What a run leaves behind under a configuration, in terms of what its task leaves behind. -/
theorem run_eq_of_task {files : Files} {debug : Bool} {i : Invocation} {config : Config} {task : Task}
    (hconfig : Config.load files i.config = .ok config) (htask : i.command.task config = .ok task) :
    i.run debug files =
      let rest := compileTo debug files task.file task.options task.target
      { rest with errors := journalText debug [.configured config.text] ++ rest.errors } := by
  rw [Invocation.run, hconfig]
  simp only [htask]

/-- The two commands, once their options are known. -/
theorem compileTo_agrees (debug : Bool) (files : Files) (file : String) (options : Options) (unit : String)
    (format : Format) :
    let checked := compileTo debug files file options .counted
    let compiled := compileTo debug files file { options with indent := unit } (.printed format)
    let checking := compilePath files file options Sink.discard ()
    let compiling := compilePath files file { options with indent := unit } (Sink.lines format.printed) (Buffer.empty none)
    checked.errors = compiled.errors ∧ checking.result = compiling.result ∧
      (∀ failure, compiling.result = .error failure → checked.status = 1 ∧ compiled.status = 1) ∧
      (∀ names, compiling.result = .ok names → checked.status = 0 ∧ compiled.status = 0 ∧
        ∃ contracts : List Contract, contracts.map Contract.name = names ∧
          compiled.output = ended (contracts.map format.printed) ∧
          checked.output = file ++ ": " ++ toString contracts.length ++ " contract(s) ok\n") := by
  intro checked compiled checking compiling
  obtain ⟨hresult, hjournal⟩ : checking.result = compiling.result ∧ checking.journal = compiling.journal :=
    compilePath_open Sink.open_discard (Sink.open_lines format.printed) files file options unit trivial rfl
  have hcompiled : compiled = outcome debug files file compiling compiling.sink.text [] files :=
    compileTo_printed debug files file _ format
  refine ⟨?_, hresult, ?_, ?_⟩
  · rw [hcompiled]
    exact outcome_errors_eq hresult hjournal _ _ _ _ _
  · intro failure hfailure
    rw [hcompiled]
    exact ⟨status_of_error (hresult.trans hfailure) _ _ _, status_of_error hfailure _ _ _⟩
  · intro names hnames
    obtain ⟨contracts, hcontracts, htext⟩ := exists_printed_of_compilePath hnames
    have hchecked : checked = ⟨0, file ++ ": " ++ toString names.length ++ " contract(s) ok\n",
        journalText debug checking.journal ++ ended [], files⟩ := by
      have hok := hresult.trans hnames
      simp only [checked, compileTo]
      rw [outcome_of_ok hok, hok]
    have hlength : names.length = contracts.length := by rw [← hcontracts, List.length_map]
    rw [hcompiled, outcome_of_ok hnames, hchecked, hlength]
    exact ⟨rfl, rfl, contracts, hcontracts, htext, rfl⟩

/-- Checking a file and compiling it to standard output, under the same configuration and whatever indentation is asked for,
either both end well or both do not. They say the same on standard error and fail for the same reason; if they do not fail,
the number that checking tells is that of the contracts that compiling prints. A directory that the configuration names for
contracts as text would be taken in place of standard output. -/
theorem check_agrees_with_compile (files : Files) (debug : Bool) (i : Invocation) (file : String) (format : Format)
    (indent : Option String)
    (hprinted : format = .text → ∀ config, Config.load files i.config = .ok config → config.build.outDir = none) :
    let checked := Invocation.run debug files { i with command := .check file }
    let compiled := Invocation.run debug files { i with command := .compile file none format indent }
    (checked.status = 0 ↔ compiled.status = 0) ∧ checked.errors = compiled.errors ∧
      ∀ config, Config.load files i.config = .ok config →
        let options := { config.options with indent := indent.getD config.options.indent }
        let checking := compilePath files file config.options Sink.discard ()
        let compiling := compilePath files file options (Sink.lines format.printed) (Buffer.empty none)
        checking.result = compiling.result ∧
          (∀ failure, compiling.result = .error failure → checked.status = 1 ∧ compiled.status = 1) ∧
          (∀ names, compiling.result = .ok names → checked.status = 0 ∧ compiled.status = 0 ∧
            ∃ contracts : List Contract, contracts.map Contract.name = names ∧
              compiled.output = ended (contracts.map format.printed) ∧
              checked.output = file ++ ": " ++ toString contracts.length ++ " contract(s) ok\n") := by
  intro checked compiled
  cases hload : Config.load files i.config with
  | error error =>
    -- neither command is run
    have hchecked : checked = ⟨1, "", errorText (error.message ++ ": " ++ error.cause), files⟩ := by
      simp only [checked, Invocation.run, hload]
    have hcompiled : compiled = ⟨1, "", errorText (error.message ++ ": " ++ error.cause), files⟩ := by
      simp only [compiled, Invocation.run, hload]
    rw [hchecked, hcompiled]
    exact ⟨Iff.rfl, rfl, fun config hconfig => by cases hconfig⟩
  | ok config =>
    have hchecked : checked = _ := run_eq_of_task (i := { i with command := .check file }) hload rfl
    have hcompiled : compiled = _ := run_eq_of_task (i := { i with command := .compile file none format indent }) hload
      (task_compile (fun htext => hprinted htext config hload) file indent)
    obtain ⟨herrors, hresult, hfail, hok⟩ := compileTo_agrees debug files file config.options
      (indent.getD config.options.indent) format
    rw [hchecked, hcompiled]
    refine ⟨?_, congrArg (journalText debug [.configured config.text] ++ ·) herrors, ?_⟩
    · generalize hend : (compilePath files file { config.options with indent := indent.getD config.options.indent }
        (Sink.lines format.printed) (Buffer.empty none)).result = result
      cases result with
      | error failure =>
        obtain ⟨hchecked, hcompiled⟩ := hfail failure hend
        simp [hchecked, hcompiled]
      | ok names =>
        obtain ⟨hchecked, hcompiled, -⟩ := hok names hend
        simp [hchecked, hcompiled]
    · intro config' hconfig
      cases Except.ok.inj hconfig
      exact ⟨hresult, hfail, hok⟩

/-- Two classes. -/
def pairSource : String := "class A \x7b x: number; \x7d class B \x7b f() \x7b return 1; \x7d \x7d"

/-- A directory with one file, which holds two classes. -/
def pairFiles : Files := ⟨[(["pair.ts"], Text.utf8Bytes pairSource)], []⟩

/-- Without a configuration file the defaults hold. -/
theorem load_pairFiles : Config.load pairFiles none = .ok {} := by
  have habsent : pairFiles.readBytes Config.fileName = .error .notFound := by
    rw [Files.readBytes_of_name (by decide) (by decide) (by decide) (by decide) (by decide)]
    rfl
  rw [Config.load, Files.pathExists, habsent]
  rfl

/-- The file is found and its text is loaded. -/
theorem loadPath_pairFiles : loadPath pairFiles "pair.ts" = loadSource "pair.ts" pairSource := by
  have hbytes : pairFiles.readBytes "pair.ts" = .ok (Text.utf8Bytes pairSource) := by
    rw [Files.readBytes_of_name (by decide) (by decide) (by decide) (by decide) (by decide)]
    rfl
  have htext : pairFiles.readText "pair.ts" = .ok pairSource := by
    rw [Files.readText, hbytes]
    simp only [Text.decode?_utf8Bytes]
  rw [loadPath, htext]

/-- Checking the pair counts what compiling it prints, with tabs in place of the configured indentation. -/
theorem pair_check_agrees :
    let i : Invocation := ⟨false, none, .auto, .print none⟩
    let checked := Invocation.run false pairFiles { i with command := .check "pair.ts" }
    let compiled := Invocation.run false pairFiles { i with command := .compile "pair.ts" none .text (some "\t") }
    Config.load pairFiles none = .ok {} ∧ checked.status = 0 ∧ compiled.status = 0 ∧ checked.errors = compiled.errors ∧
      ∃ contracts : List Contract, contracts.map Contract.name = ["A", "B"] ∧
        compiled.output = ended (contracts.map Contract.text) ∧ checked.output = "pair.ts: 2 contract(s) ok\n" := by
  intro i checked compiled
  have hprinted : Format.text = .text → ∀ config, Config.load pairFiles none = .ok config → config.build.outDir = none := by
    intro _ config hconfig
    rw [load_pairFiles] at hconfig
    cases hconfig
    rfl
  obtain ⟨-, herrors, hboth⟩ := check_agrees_with_compile pairFiles false i "pair.ts" .text (some "\t") hprinted
  obtain ⟨-, -, hok⟩ := hboth {} load_pairFiles
  have hnames : (compilePath pairFiles "pair.ts" ⟨"\t", "ETH"⟩ (Sink.lines Contract.text) (Buffer.empty none)).result =
      .ok ["A", "B"] := by
    have hvalue : (compileLoaded (loadSource "pair.ts" pairSource) ⟨"\t", "ETH"⟩ (Sink.lines Contract.text)
        (Buffer.empty none)).result.toOption = some ["A", "B"] := by decide +kernel
    rw [compilePath, loadPath_pairFiles]
    revert hvalue
    cases (compileLoaded (loadSource "pair.ts" pairSource) ⟨"\t", "ETH"⟩ (Sink.lines Contract.text)
        (Buffer.empty none)).result <;> simp [Except.toOption]
  obtain ⟨hchecked, hcompiled, contracts, hcontracts, hprint, hcount⟩ := hok ["A", "B"] hnames
  have hlength : contracts.length = 2 := by
    simpa using congrArg List.length hcontracts
  rw [hlength] at hcount
  exact ⟨load_pairFiles, hchecked, hcompiled, herrors, contracts, hcontracts, hprint, hcount⟩

end CommandLine

end ContractCompiler
