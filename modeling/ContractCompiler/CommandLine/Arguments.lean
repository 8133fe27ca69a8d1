/-!
# Arguments

What the words of a command line ask for. Options may stand before and after the file and the
subcommand; a word `--` ends them. Every word is judged when it is reached, so that a request for the
version is answered if nothing before it is wrong, whatever follows.
-/

namespace ContractCompiler.CommandLine

/-- When reports are coloured. -/
inductive Color where
  | auto | always | never
deriving DecidableEq, Repr

/-- How contracts are printed. -/
inductive Format where
  | text | json
deriving DecidableEq, Repr

/-- The options of the command line. -/
inductive Flag where
  | debug | config | color | outDir | format | indent | version | help
deriving DecidableEq, Repr

/-- The subcommands. -/
inductive Subcommand where
  | compile | check
deriving DecidableEq, Repr

/-- Why the words make no sense. -/
inductive UsageError where
  | unknownOption (word : String)
  | missingValue (flag : Flag)
  | unexpectedValue (flag : Flag)
  | repeated (flag : Flag)
  | invalidValue (flag : Flag) (value : String)
  | unexpectedWord (word : String)
  | emptyFile
  | missingFile
deriving DecidableEq, Repr

/-- What ends the reading of the words before their end. -/
inductive Ending where
  | version
  | help
  | usage (error : UsageError)
deriving DecidableEq, Repr

namespace Flag

/-- The long name of an option. -/
def name : Flag → String
  | .debug => "debug"
  | .config => "config"
  | .color => "color"
  | .outDir => "out-dir"
  | .format => "format"
  | .indent => "indent"
  | .version => "version"
  | .help => "help"

/-- The letter of an option. -/
def letter? : Flag → Option Char
  | .debug => some 'd'
  | .outDir => some 'o'
  | .version => some 'V'
  | .help => some 'h'
  | _ => none

/-- Whether an option takes a value. -/
def takesValue : Flag → Bool
  | .config | .color | .outDir | .format | .indent => true
  | .debug | .version | .help => false

/-- The options that are known in front of a subcommand, or after the given one. -/
def known : Option Subcommand → List Flag
  | none => [.debug, .config, .color, .version, .help]
  | some .compile => [.debug, .config, .color, .outDir, .format, .indent, .help]
  | some .check => [.debug, .config, .color, .help]

/-- The option of a long name. -/
def ofName? (place : Option Subcommand) (name : String) : Option Flag :=
  (known place).find? fun flag => flag.name = name

/-- The option of a letter. -/
def ofLetter? (place : Option Subcommand) (letter : Char) : Option Flag :=
  (known place).find? fun flag => flag.letter? = some letter

end Flag

/-- The wording of a misuse. -/
def UsageError.message : UsageError → String
  | .unknownOption word => "unexpected argument `" ++ word ++ "` found"
  | .missingValue flag => "a value is required for `--" ++ flag.name ++ "` but none was supplied"
  | .unexpectedValue flag => "unexpected value for `--" ++ flag.name ++ "` found"
  | .repeated flag => "the argument `--" ++ flag.name ++ "` cannot be used multiple times"
  | .invalidValue flag value => "invalid value `" ++ value ++ "` for `--" ++ flag.name ++ "`"
  | .unexpectedWord word => "unexpected argument `" ++ word ++ "` found"
  | .emptyFile => "a value is required for the file but none was supplied"
  | .missingFile => "the file was not provided"

/-- What the words have given so far. -/
structure Given where
  debug : Bool := false
  config : Option String := none
  color : Option Color := none
  outDir : Option String := none
  format : Option Format := none
  indent : Option String := none
  file : Option String := none
deriving DecidableEq, Repr

/-- A choice of colour by its name. -/
def Color.ofName? : String → Option Color
  | "auto" => some .auto
  | "always" => some .always
  | "never" => some .never
  | _ => none

/-- A format by its name. -/
def Format.ofName? : String → Option Format
  | "text" => some .text
  | "json" => some .json
  | _ => none

namespace Given

/-- Fills a place that must be empty so far. -/
def fill {α : Type} (flag : Flag) (old : Option α) (new : Option α) (value : String) :
    Except Ending (Option α) :=
  match old, new with
  | some _, _ => .error (.usage (.repeated flag))
  | none, none => .error (.usage (.invalidValue flag value))
  | none, some a => .ok (some a)

/-- A path, which is not empty. -/
def path? (value : String) : Option String := if value = "" then none else some value

/-- Takes an option without a value. -/
def mark (g : Given) : Flag → Except Ending Given
  | .version => .error .version
  | .help => .error .help
  | flag => if g.debug then .error (.usage (.repeated flag)) else .ok { g with debug := true }

/-- Takes an option with its value. -/
def set (g : Given) (flag : Flag) (value : String) : Except Ending Given :=
  match flag with
  | .config => (fill flag g.config (path? value) value).map fun x => { g with config := x }
  | .color => (fill flag g.color (Color.ofName? value) value).map fun x => { g with color := x }
  | .outDir => (fill flag g.outDir (path? value) value).map fun x => { g with outDir := x }
  | .format => (fill flag g.format (Format.ofName? value) value).map fun x => { g with format := x }
  | .indent => (fill flag g.indent (some value) value).map fun x => { g with indent := x }
  | _ => .error (.usage (.unexpectedValue flag))

/-- Takes a word that is no option: the file, of which there is one. -/
def operand (g : Given) (word : String) : Except Ending Given :=
  match g.file with
  | some _ => .error (.usage (.unexpectedWord word))
  | none =>
    if word = "" then .error (.usage .emptyFile) else .ok { g with file := some word }

end Given

/-- The shape of a word. -/
inductive Word where
  /-- The word `--`. -/
  | stop
  | long (name : String) (value : Option String)
  | short (letters : List Char)
  | operand (word : String)
deriving DecidableEq, Repr

namespace Word

/-- The shape of a word; a single `-` is an operand. -/
def ofString (word : String) : Word :=
  match word.toList with
  | ['-', '-'] => .stop
  | '-' :: '-' :: cs =>
    let (name, rest) := cs.span (· ≠ '=')
    .long (String.ofList name) (match rest with
      | _ :: value => some (String.ofList value)
      | [] => none)
  | '-' :: c :: cs => .short (c :: cs)
  | _ => .operand word

/-- The word as the value of the option before it, which it can only be if it is an operand. -/
def value? : Word → Option String
  | .operand word => some word
  | _ => none

end Word

/-- Reads letters after one dash. An option that takes a value takes the letters after it, without a
leading `=`; if there are none, it waits for the next word. -/
def readLetters (place : Option Subcommand) :
    List Char → Given → Except Ending (Given × Option Flag)
  | [], g => .ok (g, none)
  | c :: cs, g =>
    match Flag.ofLetter? place c with
    | none => .error (.usage (.unknownOption (String.ofList ['-', c])))
    | some flag =>
      if flag.takesValue then
        match cs with
        | [] => .ok (g, some flag)
        | '=' :: value => (g.set flag (String.ofList value)).map fun g => (g, none)
        | value => (g.set flag (String.ofList value)).map fun g => (g, none)
      else do readLetters place cs (← g.mark flag)

/-- Reads an option, and gives it back if it waits for a value in the next word. -/
def readOption (place : Option Subcommand) (word : Word) (g : Given) :
    Except Ending (Given × Option Flag) :=
  match word with
  | .long name value =>
    match Flag.ofName? place name, value with
    | none, _ => .error (.usage (.unknownOption ("--" ++ name)))
    | some flag, some value =>
      if flag.takesValue then (g.set flag value).map fun g => (g, none)
      else .error (.usage (.unexpectedValue flag))
    | some flag, none =>
      if flag.takesValue then .ok (g, some flag) else (g.mark flag).map fun g => (g, none)
  | .short letters => readLetters place letters g
  | .operand word => (g.operand word).map fun g => (g, none)
  | .stop => .ok (g, none)

/-- Reads words, of which `waiting` takes the first as its value. In front of a subcommand `leave`
says which words end the reading; such a word is given back with those after it. -/
def readWords (place : Option Subcommand) (leave : String → Bool) :
    Option Flag → List String → Given → Except Ending (Given × List String)
  | none, [], g => .ok (g, [])
  | some flag, [], _ => .error (.usage (.missingValue flag))
  | some flag, word :: words, g =>
    match (Word.ofString word).value? with
    | none => .error (.usage (.missingValue flag))
    | some value => do readWords place leave none words (← g.set flag value)
  | none, word :: words, g =>
    if leave word then .ok (g, word :: words)
    else if Word.ofString word = .stop then do
      return (← words.foldlM Given.operand g, [])
    else do
      let (g, waiting) ← readOption place (Word.ofString word) g
      readWords place leave waiting words g

/-- What is asked for, other than a version or help. -/
inductive Command where
  /-- Print the contracts of a file; the file may be missing, which is found out later. -/
  | print (file : Option String)
  | compile (file : String) (outDir : Option String) (format : Format) (indent : Option String)
  | check (file : String)
deriving DecidableEq, Repr

/-- A command with the settings that all commands take. -/
structure Invocation where
  debug : Bool
  config : Option String
  color : Color
  command : Command
deriving DecidableEq, Repr

namespace Subcommand

/-- The subcommand of a name. -/
def ofName? : String → Option Subcommand
  | "compile" => some .compile
  | "check" => some .check
  | _ => none

/-- The command that a subcommand makes of what it was given. -/
def command (s : Subcommand) (g : Given) : Except Ending Command :=
  match g.file with
  | none => .error (.usage .missingFile)
  | some file =>
    match s with
    | .compile => .ok (.compile file g.outDir (g.format.getD .text) g.indent)
    | .check => .ok (.check file)

end Subcommand

/-- The word that asks for help. -/
def helpWord : String := "help"

/-- Whether a word in front of a subcommand ends the options there. -/
def isCommandWord (word : String) : Bool := (Subcommand.ofName? word).isSome || word = helpWord

/-- Reads the words after the word `help`: at most one, a subcommand. -/
def readHelp : List String → Ending
  | [] => .help
  | word :: [] => if isCommandWord word then .help else .usage (.unexpectedWord word)
  | _ :: word :: _ => .usage (.unexpectedWord word)

/-- Reads all words of a command line. Settings after a subcommand win over those in front of it. -/
def readArguments (words : List String) : Except Ending Invocation := do
  let (before, rest) ← readWords none isCommandWord none words {}
  match rest with
  | [] => return ⟨before.debug, before.config, before.color.getD .auto, .print before.file⟩
  | word :: rest =>
    match Subcommand.ofName? word with
    | none => throw (readHelp rest)
    | some subcommand =>
      let (after, _) ← readWords (some subcommand) (fun _ => false) none rest {}
      let command ← subcommand.command after
      return ⟨before.debug || after.debug, after.config <|> before.config,
        (after.color <|> before.color).getD .auto, command⟩

end ContractCompiler.CommandLine
