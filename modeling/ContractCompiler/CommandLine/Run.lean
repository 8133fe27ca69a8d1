import ContractCompiler.CommandLine.Arguments
import ContractCompiler.Config
import ContractCompiler.Diagnostic.Snippet

/-!
# Running the command line

A run takes the working directory and the words of the command line to an outcome: the exit status,
what is printed, and the directory afterwards.
-/

namespace ContractCompiler.CommandLine

/-- What a run leaves behind. -/
structure Outcome where
  status : Nat
  /-- The text on standard output. -/
  output : String
  /-- The text on standard error. -/
  errors : String
  files : Files

/-- An event as a line, if events of its level are shown: warnings always, all others in a debug run.
Details come with the part of the compiler they are from. -/
def eventLine? (debug : Bool) (e : Event) : Option String :=
  match e.level with
  | .warn => some ("[WARN] " ++ e.message)
  | .info => if debug then some ("[INFO] " ++ e.message) else none
  | .debug => if debug then some ("[DEBUG] (1) " ++ e.origin ++ ": " ++ e.message) else none

/-- A text in which each of the lines is ended. -/
def ended (lines : List String) : String := String.join (lines.map (· ++ "\n"))

/-- What is shown of a journal. -/
def journalText (debug : Bool) (journal : Journal) : String :=
  ended (journal.filterMap (eventLine? debug))

/-- What ends a run that failed. -/
def errorText (message : String) : String := ended ["error: " ++ message]

/-- What is told of a failure to compile a file: the reports, if it lies in the source, and why the
run ends. A failure with another cause is told together with it. -/
def failureText (files : Files) (file : String) : Failure → String
  | .load (.read path error) =>
    errorText ((LoadError.read path error).message ++ ": " ++ error.message)
  | .compile (.emit contract reason) =>
    errorText ((CompileError.emit contract reason).message ++ ": " ++ reason)
  | failure =>
    let source := (files.readText file).toOption.getD ""
    String.join (failure.diagnostics.map fun d => d.text file source) ++
      errorText ("could not compile `" ++ file ++ "`")

/-- Where contracts go. -/
inductive Target where
  | printed (format : Format)
  | written (dir : String)
  /-- Nowhere: only their number is told. -/
  | counted
deriving DecidableEq, Repr

/-- The outcome of compiling a file, given the output and the lines that a successful run adds to
standard error. -/
def outcome {σ : Type} (debug : Bool) (files : Files) (file : String) (run : Run Failure σ)
    (output : String) (notes : List String) (after : Files) : Outcome :=
  let shown := journalText debug run.journal
  match run.result with
  | .ok _ => ⟨0, output, shown ++ ended notes, after⟩
  | .error failure => ⟨1, output, shown ++ failureText files file failure, after⟩

/-- Compiles a file to a target. -/
def compileTo (debug : Bool) (files : Files) (file : String) (options : Options) :
    Target → Outcome
  | .printed format =>
    let sink := match format with
      | .text => Sink.writer
      | .json => Sink.jsonLines
    let run := compilePath files file options sink (Buffer.empty none)
    outcome debug files file run run.sink.text [] files
  | .written dir =>
    let run := compilePath files file options (Sink.directory dir) ⟨files, []⟩
    outcome debug files file run "" (run.sink.written.map ("wrote " ++ ·)) run.sink.files
  | .counted =>
    let run := compilePath files file options Sink.discard ()
    let output := match run.result with
      | .ok names => file ++ ": " ++ toString names.length ++ " contract(s) ok\n"
      | .error _ => ""
    outcome debug files file run output [] files

/-- Why a command is not run at all. -/
inductive Refusal where
  | noFile
  | jsonToDirectory
deriving DecidableEq, Repr

/-- The wording of a refusal. -/
def Refusal.message : Refusal → String
  | .noFile => "no input file given; see `tsolc --help`"
  | .jsonToDirectory => "--out-dir cannot be combined with --format json"

/-- What is to be compiled, how and where to. -/
structure Task where
  file : String
  options : Options
  target : Target
deriving DecidableEq, Repr

/-- The task of a command under a configuration. The command line wins over the configuration, whose
directory is for contracts as text. -/
def Command.task (config : Config) : Command → Except Refusal Task
  | .print none => .error .noFile
  | .print (some file) => .ok ⟨file, config.options, .printed .text⟩
  | .check file => .ok ⟨file, config.options, .counted⟩
  | .compile file outDir format indent =>
    let options := { config.options with indent := indent.getD config.options.indent }
    match format, outDir with
    | .json, some _ => .error .jsonToDirectory
    | .json, none => .ok ⟨file, options, .printed .json⟩
    | .text, _ =>
      match outDir <|> config.build.outDir with
      | some dir => .ok ⟨file, options, .written dir⟩
      | none => .ok ⟨file, options, .printed .text⟩

/-- The outcome of an invocation; `debug` says whether details are shown. -/
def Invocation.run (debug : Bool) (files : Files) (i : Invocation) : Outcome :=
  match Config.load files i.config with
  | .error error => ⟨1, "", errorText (error.message ++ ": " ++ error.cause), files⟩
  | .ok config =>
    let first := journalText debug [.configured config.text]
    match i.command.task config with
    | .error refusal => ⟨1, "", first ++ errorText refusal.message, files⟩
    | .ok task =>
      let rest := compileTo debug files task.file task.options task.target
      { rest with errors := first ++ rest.errors }

/-- Whether the environment asks for details: the variable is `1` or the word true in any case. -/
def wantsDebug : Option String → Bool
  | none => false
  | some value => value = "1" || value.toLower = "true"

/-- The name and number of the program. -/
def versionText : String := "tsolc 0.1.0\n"

/-- How the program is used. -/
def helpText : String :=
  "Compile TypeScript contract classes to Solidity\n\n" ++
  "Usage: tsolc [OPTIONS] [FILE] [COMMAND]\n\n" ++
  "Commands:\n" ++
  "  compile  Compile a file, printing the contracts or writing them to a directory\n" ++
  "  check    Parse, bind and render a file without writing any output\n" ++
  "  help     Print this message or the help of the given subcommand(s)\n\n" ++
  "Arguments:\n" ++
  "  [FILE]  Source file to compile to stdout (when no subcommand is used)\n\n" ++
  "Options:\n" ++
  "  -d, --debug          Enable verbose debug logging (or set TSOLC_DEBUG=1)\n" ++
  "      --config <PATH>  Configuration file (default: tsol.toml in the current directory)\n" ++
  "      --color <COLOR>  When to colour diagnostics [default: auto] " ++
  "[possible values: auto, always, never]\n" ++
  "  -h, --help           Print help\n" ++
  "  -V, --version        Print version\n"

/-- Runs the command line. `debugSetting` is what the environment says about details. -/
def run (files : Files) (debugSetting : Option String) (words : List String) : Outcome :=
  match readArguments words with
  | .error .version => ⟨0, versionText, "", files⟩
  | .error .help => ⟨0, helpText, "", files⟩
  | .error (.usage error) => ⟨2, "", errorText error.message, files⟩
  | .ok invocation => invocation.run (invocation.debug || wantsDebug debugSetting) files

/-- The paths that a command line may read. -/
def readPaths (words : List String) : List String :=
  match readArguments words with
  | .error _ => []
  | .ok invocation =>
    let file := match invocation.command with
      | .print file => file.toList
      | .compile file .. | .check file => [file]
    invocation.config.getD Config.fileName :: file

end ContractCompiler.CommandLine
