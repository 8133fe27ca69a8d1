import ContractCompiler.Toml.Quoted

/-!
# TOML documents

Reading a document: its statements, line by line, and the table they define. Line breaks are taken as
single line feeds from the start, so that a carriage return that is left stands alone and is refused
wherever it is.
-/

namespace ContractCompiler.Toml

/-- A reader of `α`: it takes characters off the front of what is left of a text. -/
abbrev Reader (α : Type) := StateT (List Char) (Except Fault) α

/-- The number of tables, arrays and parts of a key that may be nested. -/
def maxDepth : Nat := 79

namespace Reader

/-- The next character. -/
def peek : Reader (Option Char) := fun cs => .ok (cs.head?, cs)

/-- Whether everything has been read. -/
def atEnd : Reader Bool := fun cs => .ok (cs.isEmpty, cs)

/-- Takes the next character if it is `c`, and says whether it was. -/
def accept (c : Char) : Reader Bool := fun cs =>
  match cs with
  | d :: ds => if d = c then .ok (true, ds) else .ok (false, cs)
  | [] => .ok (false, cs)

/-- Takes the character `c`, or fails. -/
def expect (c : Char) : Reader Unit := do
  unless ← accept c do throw .malformed

/-- Takes the characters that satisfy `p`. -/
def takeWhile (p : Char → Bool) : Reader (List Char) := fun cs =>
  .ok (cs.takeWhile p, cs.dropWhile p)

/-- Skips spaces and tabs. -/
def skipGap : Reader Unit := do
  let _ ← takeWhile isGap

/-- What is left after gaps, line breaks and comments; `comment` says whether a comment has begun. -/
def afterLayout : Bool → List Char → List Char
  | _, [] => []
  | true, c :: cs =>
    if c = '\n' then afterLayout false cs
    else if isPlain c then afterLayout true cs
    else c :: cs
  | false, c :: cs =>
    if isGap c || c = '\n' then afterLayout false cs
    else if c = '#' then afterLayout true cs
    else c :: cs

/-- Skips gaps, line breaks and comments. -/
def skipLayout : Reader Unit := fun cs => .ok ((), afterLayout false cs)

/-- Skips the rest of a line, in which there may be a comment and nothing else. -/
def endLine : Reader Unit := do
  skipGap
  if ← accept '#' then
    let _ ← takeWhile isPlain
  unless ← atEnd do expect '\n'

/-- Runs `step` for as long as it says so, at most `n` times, and gives what the rounds gave. -/
def roundsUpTo {α : Type} (step : Reader (List α × Bool)) : Nat → Reader (List α)
  | 0 => throw .malformed
  | n + 1 => do
    let (items, more) ← step
    if more then return items ++ (← roundsUpTo step n) else return items

/-- Runs `step` for as long as it says so. Every round but the last takes a character, so there are
no more of them than characters, and one. -/
def rounds {α : Type} (step : Reader (List α × Bool)) : Reader (List α) := fun cs =>
  roundsUpTo step (cs.length + 1) cs

/-- Whether a character may stand in a part of a key without quotes. -/
def isKeyChar (c : Char) : Bool := c.isAlphanum || c = '-' || c = '_'

/-- Reads a part of a key. -/
def keyPart : Reader String := do
  if ← accept '\x22' then quotedLine '\x22'
  else if ← accept '\x27' then quotedLine '\x27'
  else
    let cs ← takeWhile isKeyChar
    if cs.isEmpty then throw .malformed
    return String.ofList cs

/-- Reads a key: parts with points between them and gaps around them. -/
def key : Reader Key := do
  let parts ← rounds do
    skipGap
    let part ← keyPart
    skipGap
    return ([part], ← accept '.')
  if maxDepth < parts.length then throw .tooDeep
  match parts.getLast? with
  | some last => return ⟨parts.dropLast, last⟩
  | none => throw .malformed

/-- Reads a value without quotes. A date may be followed by a space and a time. -/
def bare : Reader Value := do
  let cs ← takeWhile isScalarChar
  if isDate cs then
    fun rest =>
      match rest with
      | ' ' :: more =>
        let (time, after) := more.span isScalarChar
        if isOffsetTime time then .ok (.moment (String.ofList (cs ++ ' ' :: time)), after)
        else .ok (.moment (String.ofList cs), rest)
      | _ => .ok (.moment (String.ofList cs), rest)
  else
    (scalar cs : Except Fault Value)

/-- Reads the items of an array up to its closing bracket. -/
def arrayItems (item : Reader Value) : Reader (List Value) :=
  rounds do
    skipLayout
    if ← accept ']' then return ([], false)
    let value ← item
    skipLayout
    if ← accept ',' then return ([value], true)
    expect ']'
    return ([value], false)

/-- Reads a pair of a key and a value. -/
def pair (value : Reader Value) : Reader (Key × Value) := do
  let key ← key
  expect '='
  skipGap
  return (key, ← value)

/-- Reads the pairs of a table in braces up to its closing brace. -/
def tablePairs (value : Reader Value) : Reader (List (Key × Value)) := do
  skipGap
  if ← accept '\x7D' then return []
  rounds do
    let p ← pair value
    skipGap
    if ← accept ',' then return ([p], true)
    expect '\x7D'
    return ([p], false)

/-- Reads an array or a table in braces whose values are read by `value`. -/
def compound (value : Reader Value) : Reader Value := do
  if ← accept '[' then return .array (← arrayItems value)
  expect '\x7B'
  let pairs ← tablePairs value
  (Value.ofPairs pairs : Except Fault Value)

/-- Reads a value, an array or a table by `compound`. -/
def valueWith (compound : Reader Value) : Reader Value := do
  match ← peek with
  | some c =>
    if c = '[' || c = '\x7B' then compound
    else if isQuote c then
      expect c
      return .text (← quotedText c)
    else bare
  | none => throw .malformed

/-- Reads a value in which arrays and tables are nested at most `depth` levels deep. -/
def valueWithin : Nat → Reader Value
  | 0 => valueWith (throw .tooDeep)
  | depth + 1 => valueWith (compound (valueWithin depth))

/-- Reads a value. -/
def value : Reader Value := valueWithin maxDepth

/-- Reads a header, in brackets or in double brackets. -/
def header : Reader Statement := do
  expect '['
  if ← accept '[' then
    let key ← key
    expect ']'
    expect ']'
    return .elementHeader key
  else
    let key ← key
    expect ']'
    return .header key

/-- Reads a statement. -/
def statement : Reader Statement := do
  match ← peek with
  | some '[' => header
  | _ =>
    let (key, value) ← pair value
    return .pair key value

/-- Reads all statements of a document. -/
def statements : Reader (List Statement) :=
  rounds do
    skipLayout
    if ← atEnd then return ([], false)
    let s ← statement
    endLine
    return ([s], true)

end Reader

/-- The text with each carriage return and line feed as a single line feed. -/
def joinBreaks : List Char → List Char
  | '\r' :: '\n' :: cs => '\n' :: joinBreaks cs
  | c :: cs => c :: joinBreaks cs
  | [] => []

/-- The text without a byte order mark at its front. -/
def dropMark : List Char → List Char
  | '\uFEFF' :: cs => cs
  | cs => cs

/-- Reads a document. -/
def parse (text : String) : Except Fault Entries := do
  let (statements, _) ← Reader.statements (joinBreaks (dropMark text.toList))
  Entries.ofStatements statements

end ContractCompiler.Toml
