import ContractCompiler.Output.Sink
import ContractCompiler.Reading.Items

/-!
# Compiling

A file is compiled class by class: each class is written and handed to the sink before the next one is
looked at, and the first failure ends the run. A source text with errors is not compiled at all.
-/

namespace ContractCompiler

/-- How contracts are written. -/
structure Options where
  /-- The text written once per level of indentation. -/
  indent : String := "   "
  /-- The exported name of the receiver. -/
  receiver : String := "ETH"
deriving DecidableEq, Repr

/-- Why compiling a file stopped. -/
inductive CompileError where
  /-- A class could not be written. -/
  | render (className : String) (error : RenderError)
  /-- The sink refused a contract. -/
  | emit (contract reason : String)
deriving DecidableEq, Repr

namespace CompileError

/-- The wording of a failure. -/
def message : CompileError → String
  | .render className error => "in contract `" ++ className ++ "`: " ++ error.message
  | .emit contract reason => "failed to emit contract `" ++ contract ++ "`: " ++ reason

end CompileError

/-- What a run gives: the names of the contracts or a failure, what the sink holds, and what was
noted. -/
structure Run (ε σ : Type) where
  result : Except ε (List String)
  sink : σ
  journal : Journal

/-- Writes classes one after the other and hands each to the sink. -/
def emitClasses {σ : Type} (sink : Sink σ) (indent : String) (b : Bindings) :
    List ClassDecl → σ → Run CompileError σ
  | [], held => ⟨.ok [], held, []⟩
  | decl :: decls, held =>
    let events := decl.renderEvents indent b
    match decl.render indent b with
    | .error e => ⟨.error (.render decl.name.name e), held, events⟩
    | .ok contract =>
      let emission := sink.emit held contract
      match emission.failure with
      | some reason =>
        ⟨.error (.emit contract.name reason), emission.state, events ++ emission.journal⟩
      | none =>
        let rest := emitClasses sink indent b decls emission.state
        ⟨rest.result.map (contract.name :: ·), rest.sink,
          events ++ emission.journal ++ .emitted contract.name :: rest.journal⟩

/-- Compiles the classes of a file into a sink. -/
def compileFile {σ : Type} (file : SourceFile) (options : Options) (sink : Sink σ) (held : σ) :
    Run CompileError σ :=
  let table := ClassTable.ofFile file
  let run := emitClasses sink options.indent (file.bindings options.receiver) table.classes held
  { run with
    journal := ClassTable.events file ++ .classList table.names ::
      file.bindingEvents options.receiver ++ run.journal }

/-- A source text that was read without errors. -/
structure Loaded where
  path : String
  source : String
  file : SourceFile

/-- Why a source could not be loaded. -/
inductive LoadError where
  | read (path : String) (error : ReadError)
  | parse (path source : String) (errors : List ParseError)

/-- The wording of a failure to load. -/
def LoadError.message : LoadError → String
  | .read path error => "failed to read " ++ path ++ ": " ++ error.message
  | .parse path _ _ => "parse errors in " ++ path

/-- What loading a source gives, and what was noted on the way. -/
structure Load where
  result : Except LoadError Loaded
  journal : Journal

/-- Reads a source text; `path` is its name in messages. -/
def loadSource (path source : String) : Load :=
  let parsed := parse source
  let result :=
    if parsed.errors.isEmpty then .ok ⟨path, source, parsed.file⟩
    else .error (.parse path source parsed.errors)
  ⟨result, .parsing path :: parsed.journal⟩

/-- Reads the source text at a path. -/
def loadPath (files : Files) (path : String) : Load :=
  match files.readText path with
  | .ok source => loadSource path source
  | .error e => ⟨.error (.read path e), []⟩

/-- Why compiling a source text stopped. -/
inductive Failure where
  | load (error : LoadError)
  | compile (error : CompileError)

/-- Compiles what was loaded. -/
def compileLoaded {σ : Type} (load : Load) (options : Options) (sink : Sink σ) (held : σ) :
    Run Failure σ :=
  match load.result with
  | .error e => ⟨.error (.load e), held, load.journal⟩
  | .ok loaded =>
    let run := compileFile loaded.file options sink held
    ⟨run.result.mapError .compile, run.sink, load.journal ++ run.journal⟩

/-- Compiles a source text into a sink. -/
def compileSource {σ : Type} (path source : String) (options : Options) (sink : Sink σ) (held : σ) :
    Run Failure σ :=
  compileLoaded (loadSource path source) options sink held

/-- Compiles the source text at a path into a sink. -/
def compilePath {σ : Type} (files : Files) (path : String) (options : Options) (sink : Sink σ)
    (held : σ) : Run Failure σ :=
  compileLoaded (loadPath files path) options sink held

end ContractCompiler
