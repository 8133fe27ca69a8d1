import ContractCompiler.Journal
import ContractCompiler.Reading.Cursor
import ContractCompiler.Reading.ParseError
import ContractCompiler.Tree.Ident

/-!
# Parsers

A parser moves a cursor forward and gives a value, or fails with one error at the token it could not
use. Where the grammar can go on after a failure, `attempt` turns it into a recorded error.

Parsers are made of a few kinds of steps, and `run` takes these steps; `advance` is the only one that
moves the cursor. Repetition, skipping and what is read inside itself are `bounded`: they may go on as
often, or as deep, as there are tokens, since they read a token every time. If that were not enough
they would fail as `exhausted`.
-/

namespace ContractCompiler

/-- What a parser works on: the cursor, the errors recorded so far and the events noted so far. -/
structure ParserState extends Cursor where
  errors : List ParseError
  journal : Journal

/-- A parser of `α`: the steps it takes. -/
inductive Parser : Type → Type 1 where
  /-- Looks at the state. -/
  | look {α : Type} (view : ParserState → α) : Parser α
  /-- Fails at the token at the cursor. -/
  | fail {α : Type} (fault : ParseFault) : Parser α
  /-- Records that `what` was expected at the cursor, and goes on. -/
  | recordMissing (what : Missing) : Parser Unit
  /-- Notes an event. -/
  | note (event : Event) : Parser Unit
  /-- Moves over one token. -/
  | advance : Parser Unit
  /-- Runs `first`, and then `next` on its value. -/
  | bind {α β : Type} (first : Parser α) (next : α → Parser β) : Parser β
  /-- Runs `p`; if it fails, its error is recorded and there is no value. -/
  | attempt {α : Type} (p : Parser α) : Parser (Option α)
  /-- Runs `p` with a bound of one more than there are tokens ahead. -/
  | bounded {α : Type} (p : Nat → Parser α) : Parser α

namespace Parser

/-- What a parser comes to. -/
@[simp]
def run : {α : Type} → Parser α → ParserState → EStateM.Result ParseError ParserState α
  | _, .look view, s => .ok (view s) s
  | _, .fail fault, s => .error ⟨fault, s.here.span⟩ s
  | _, .recordMissing what, s =>
    .ok () { s with errors := s.errors ++ [⟨.missing what, s.here.span⟩] }
  | _, .note event, s => .ok () { s with journal := s.journal ++ [event] }
  | _, .advance, s => .ok () { s with toCursor := s.toCursor.advance }
  | _, .bind first next, s =>
    match first.run s with
    | .ok a s' => (next a).run s'
    | .error e s' => .error e s'
  | _, .attempt p, s =>
    match p.run s with
    | .ok a s' => .ok (some a) s'
    | .error e s' => .ok none { s' with errors := s'.errors ++ [e] }
  | _, .bounded p, s => (p (s.ahead.length + 1)).run s

instance {α : Type} :
    CoeFun (Parser α) fun _ => ParserState → EStateM.Result ParseError ParserState α := ⟨run⟩

instance : Monad Parser where
  pure a := .look fun _ => a
  bind := .bind

/-- The state. -/
def get : Parser ParserState := .look id

/-- The token at the cursor. -/
def here : Parser Token := .look fun s => s.here

/-- The kind of the token `n` places ahead. -/
def kindAt (n : Nat) : Parser TokenKind := .look fun s => s.kindAt n

/-- Whether everything has been read. -/
def atEnd : Parser Bool := .look fun s => s.atEnd

/-- The span from `start` to the end of the last token read. -/
def spanFrom (start : Nat) : Parser Span := .look fun s => s.spanFrom start

/-- Whether the token at the cursor is of the given kind. -/
def check (kind : TokenKind) : Parser Bool := .look fun s => s.here.kind = kind

/-- Moves over `n` tokens. -/
def advanceBy : Nat → Parser Unit
  | 0 => pure ()
  | n + 1 => do
    advance
    advanceBy n

/-- Fails because `what` was expected. -/
def missing {α : Type} (what : Missing) : Parser α := fail (.missing what)

/-- Reads the token at the cursor if it is of the given kind, and says whether it was. -/
def acceptKind (kind : TokenKind) : Parser Bool := do
  if ← check kind then
    advance
    return true
  else return false

/-- Reads a mark if it is at the cursor, and says whether it was. -/
def accept (mark : Mark) : Parser Bool := acceptKind (.mark mark)

/-- Reads a keyword if it is at the cursor, and says whether it was. -/
def acceptWord (word : Keyword) : Parser Bool := acceptKind (.keyword word)

/-- Reads a mark, or fails because `what` was expected. -/
def expect (mark : Mark) (what : Missing) : Parser Unit := do
  unless ← accept mark do missing what

/-- Reads a keyword, or fails because `what` was expected. -/
def expectWord (word : Keyword) (what : Missing) : Parser Unit := do
  unless ← acceptWord word do missing what

/-- Reads a token that `name?` takes for a name, or fails because `what` was expected. -/
def identBy (name? : TokenKind → Option String) (what : Missing) : Parser Ident := do
  let token ← here
  match name? token.kind with
  | some name =>
    advance
    return ⟨name, token.span⟩
  | none => missing what

/-- Reads the name of a variable, a parameter or a class. -/
def bindingIdent (what : Missing) : Parser Ident := identBy TokenKind.bindingName? what

/-- Reads the name of a declared member: a word or a quoted string. -/
def declaredIdent (what : Missing) : Parser Ident := identBy TokenKind.declaredName? what

/-- Runs `p` if the mark is at the cursor. -/
def after {α : Type} (mark : Mark) (p : Parser α) : Parser (Option α) := do
  if ← accept mark then return some (← p) else return none

/-- Moves over tokens as `step` says, starting in `state`, and stops at the end of the input. At most
`n` tokens are looked at. -/
def skipUpTo {σ : Type} (step : σ → TokenKind → Skip σ) : Nat → σ → Parser Unit
  | 0, _ => fail .exhausted
  | n + 1, state => do
    unless ← atEnd do
      match step state (← here).kind with
      | .leave => return
      | .last => advance
      | .take state' =>
        advance
        skipUpTo step n state'

/-- Skips tokens as `step` says, starting in `state`. -/
def skip {σ : Type} (step : σ → TokenKind → Skip σ) (state : σ) : Parser Unit :=
  bounded fun n => skipUpTo step n state

/-- Skips a list in angle brackets if one starts at the cursor. -/
def skipAngles : Parser Unit := do
  if ← check (.mark .lt) then skip Cursor.angleStep 0

/-- Runs `step` for as long as it says so, at most `n` times, and gives together what the rounds
gave. -/
def collectUpTo {α : Type} (step : Parser (List α × Bool)) : Nat → Parser (List α)
  | 0 => fail .exhausted
  | n + 1 => do
    let (items, more) ← step
    if more then return items ++ (← collectUpTo step n) else return items

/-- Runs `step` for as long as it says so, and gives together what the rounds gave. -/
def collect {α : Type} (step : Parser (List α × Bool)) : Parser (List α) :=
  bounded (collectUpTo step)

/-- Extends `a` by `step` for as long as it can, at most `n` times. -/
def chainUpTo {α : Type} (step : α → Parser (Option α)) : Nat → α → Parser α
  | 0, _ => fail .exhausted
  | n + 1, a => do
    match ← step a with
    | some a' => chainUpTo step n a'
    | none => return a

/-- Extends `a` by `step` for as long as it can. -/
def chain {α : Type} (step : α → Parser (Option α)) (a : α) : Parser α :=
  bounded fun n => chainUpTo step n a

/-- Reads items with commas between them up to `close`, which may follow a comma. -/
def listUpTo {α : Type} (close : Mark) (separator : Missing) (item : Parser α) : Parser (List α) :=
  collect do
    if ← accept close then return ([], false)
    let a ← item
    if ← accept close then return ([a], false)
    expect .comma separator
    return ([a], true)

/-- Reads one or more items with commas between them up to `close`, which may not follow a comma. -/
def someUpTo {α : Type} (close : Mark) (separator : Missing) (item : Parser α) : Parser (List α) :=
  collect do
    let a ← item
    if ← accept close then return ([a], false)
    expect .comma separator
    return ([a], true)

/-- Reads names with points between them, the first of which is `first`. -/
def dottedFrom (first : Ident) (what : Missing) : Parser (List Ident) := do
  let more ← collect do
    if ← accept .dot then return ([← declaredIdent what], true) else return ([], false)
  return first :: more

end Parser

end ContractCompiler
