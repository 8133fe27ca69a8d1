import ContractCompiler.Compile
import ContractCompiler.Text.Quoted
import ContractCompiler.Toml.Document

/-!
# Configuration

What a project sets once for all runs: how contracts are written, where to, and what the receiver is
called. It is read from a TOML document in which keys and tables other than these are ignored.
-/

namespace ContractCompiler

/-- How and where contracts are written. -/
structure BuildConfig where
  indent : Option String := none
  outDir : Option String := none
deriving DecidableEq, Repr

/-- What the receiver is. -/
structure IntrinsicsConfig where
  receiver : Option String := none
deriving DecidableEq, Repr

/-- The configuration of a project; what is missing takes its default. -/
structure Config where
  build : BuildConfig := {}
  intrinsics : IntrinsicsConfig := {}
deriving DecidableEq, Repr

/-- Why a text is not a configuration. -/
inductive ConfigFault where
  | toml (fault : Toml.Fault)
  | notText (key : String)
  | notATable (key : String)
  | notListed (key : String)
deriving DecidableEq, Repr

/-- The wording of a fault. -/
def ConfigFault.message : ConfigFault → String
  | .toml fault => fault.message
  | .notText key => "`" ++ key ++ "` must be a string"
  | .notATable key => "`" ++ key ++ "` must be a table"
  | .notListed key => "there is no item for `" ++ key ++ "`"

/-- Why a configuration could not be loaded. -/
inductive ConfigError where
  | read (path : String) (error : ReadError)
  | invalid (path : String) (fault : ConfigFault)
deriving DecidableEq, Repr

namespace ConfigError

/-- What lies behind a failure to load. -/
def cause : ConfigError → String
  | .read _ error => error.message
  | .invalid _ fault => fault.message

/-- The wording of a failure to load. -/
def message (e : ConfigError) : String :=
  match e with
  | .read path _ => "failed to read " ++ path ++ ": " ++ e.cause
  | .invalid path _ => "invalid configuration in " ++ path ++ ": " ++ e.cause

end ConfigError

/-- A value that must be a text. -/
def textOf (key : String) : Toml.Value → Except ConfigFault String
  | .text s => .ok s
  | _ => .error (.notText key)

/-- A section of a document. -/
inductive ConfigSection where
  /-- Nothing that could give a text: no section at all, or a point in time. -/
  | missing
  /-- A table, in which texts have names and may be left out. -/
  | named (entries : Toml.Entries)
  /-- An array, in which the texts stand in the order of their keys and all are there. -/
  | listed (items : List Toml.Value)

namespace ConfigSection

/-- The section of a name. -/
def find (entries : Toml.Entries) (name : String) : Except ConfigFault ConfigSection :=
  match entries.get? name with
  | none | some (.moment _) => .ok .missing
  | some (.table _ inner) => .ok (.named inner)
  | some (.array items) => .ok (.listed items)
  | some _ => .error (.notATable name)

/-- The text that a section gives for a key, which is the one at `position` of its keys. -/
def text? (s : ConfigSection) (position : Nat) (key : String) : Except ConfigFault (Option String) :=
  match s with
  | .missing => .ok none
  | .named entries =>
    match entries.get? key with
    | none => .ok none
    | some value => (textOf key value).map some
  | .listed items =>
    match items[position]? with
    | none => .error (.notListed key)
    | some value => (textOf key value).map some

end ConfigSection

namespace Config

/-- The file that is read if no other is named. -/
def fileName : String := "tsol.toml"

/-- The configuration that the entries of a document give. -/
def ofEntries (entries : Toml.Entries) : Except ConfigFault Config := do
  let build ← ConfigSection.find entries "build"
  let intrinsics ← ConfigSection.find entries "intrinsics"
  return ⟨⟨← build.text? 0 "indent", ← build.text? 1 "out_dir"⟩, ⟨← intrinsics.text? 0 "receiver"⟩⟩

/-- Reads a configuration from a text. -/
def parse (text : String) : Except ConfigFault Config :=
  match Toml.parse text with
  | .ok entries => ofEntries entries
  | .error fault => .error (.toml fault)

/-- Reads the configuration at a path. -/
def loadPath (files : Files) (path : String) : Except ConfigError Config :=
  match files.readText path with
  | .error error => .error (.read path error)
  | .ok text =>
    match parse text with
    | .ok config => .ok config
    | .error fault => .error (.invalid path fault)

/-- Loads the configuration at the given path; if none is given, the one in the working directory or,
without one, the default. -/
def load (files : Files) : Option String → Except ConfigError Config
  | some path => loadPath files path
  | none => if files.pathExists fileName then loadPath files fileName else .ok {}

/-- How contracts are written under this configuration. -/
def options (c : Config) : Options :=
  let base : Options := {}
  ⟨c.build.indent.getD base.indent, c.intrinsics.receiver.getD base.receiver⟩

/-- A text that may be missing, as the journal shows it. -/
def optionText : Option String → String
  | none => "None"
  | some s => "Some(" ++ Text.quoted s ++ ")"

/-- A record as the journal shows it. -/
def recordText (name : String) (fields : List (String × String)) : String :=
  name ++ " \x7b " ++ ", ".intercalate (fields.map fun (key, value) => key ++ ": " ++ value) ++ " \x7d"

/-- A configuration as the journal shows it. -/
def text (c : Config) : String :=
  recordText "TsolConfig"
    [("build", recordText "BuildConfig"
        [("indent", optionText c.build.indent), ("out_dir", optionText c.build.outDir)]),
     ("intrinsics", recordText "IntrinsicsConfig"
        [("receiver", optionText c.intrinsics.receiver)])]

end Config

end ContractCompiler
