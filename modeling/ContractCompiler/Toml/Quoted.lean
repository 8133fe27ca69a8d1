import ContractCompiler.Toml.Scalar

/-!
# Values in quotes

There are four kinds of quoted texts: in double quotes, with escapes, or in single quotes, without; and
each on one line or, between three quotes, over several. One automaton reads them all, a character at a
time.
-/

namespace ContractCompiler.Toml

open Text

/-- A kind of quoted text. -/
structure Quote where
  /-- The quote character. -/
  mark : Char
  /-- Whether a backslash starts an escape. -/
  escapes : Bool
  /-- Whether the text may run over several lines. -/
  several : Bool
deriving DecidableEq, Repr

/-- Whether a character stands for itself: no control character but the tab does. -/
def isPlain (c : Char) : Bool := c = '\t' || (' ' ≤ c && c ≠ '\x7F')

/-- Whether a character is a space or a tab. -/
def isGap (c : Char) : Bool := c = ' ' || c = '\t'

/-- Where in an escape the reader of a quoted text is. -/
inductive EscapeState where
  /-- In none. -/
  | outside
  /-- After a line break that was escaped: what follows is skipped up to the next other character. -/
  | folding
  /-- After the backslash. -/
  | opened
  /-- After a backslash and gaps: a line break must follow. -/
  | gap
  /-- Before `left` more digits of a code point. -/
  | code (left value : Nat)
deriving DecidableEq, Repr

/-- The character that a letter after a backslash stands for. -/
def escape? (c : Char) : Option Char :=
  if c = 'b' then some '\x08'
  else if c = 't' then some '\t'
  else if c = 'n' then some '\n'
  else if c = 'f' then some '\x0C'
  else if c = 'r' then some '\r'
  else if c = '\x22' then some '\x22'
  else if c = '\\' then some '\\'
  else none

/-- What a run of quotes at the front means in a text over several lines: three or more close it, and
up to two more before them belong to it. -/
def closing? (mark : Char) (cs : List Char) : Option (List Char × List Char) :=
  let count := min (cs.takeWhile (· = mark)).length 5
  if 3 ≤ count then some (List.replicate (count - 3) mark, cs.drop count) else none

/-- Reads a quoted text from inside it to after its closing quote. -/
def quotedBody (q : Quote) : EscapeState → List Char → Except Fault (List Char × List Char)
  | _, [] => .error .malformed
  | .opened, c :: cs =>
    match escape? c with
    | some e => (quotedBody q .outside cs).map fun r => (e :: r.1, r.2)
    | none =>
      if c = 'u' then quotedBody q (.code 4 0) cs
      else if c = 'U' then quotedBody q (.code 8 0) cs
      else if q.several && isGap c then quotedBody q .gap cs
      else if q.several && c = '\n' then quotedBody q .folding cs
      else .error .malformed
  | .gap, c :: cs =>
    if isGap c then quotedBody q .gap cs
    else if c = '\n' then quotedBody q .folding cs
    else .error .malformed
  | .code left value, c :: cs =>
    match hexValue? c with
    | none => .error .malformed
    | some digit =>
      let value := 16 * value + digit
      if 1 < left then quotedBody q (.code (left - 1) value) cs
      else if value.isValidChar then
        (quotedBody q .outside cs).map fun r => (Char.ofNat value :: r.1, r.2)
      else .error .outOfRange
  | state, c :: cs =>
    if state = .folding && (isGap c || c = '\n') then quotedBody q .folding cs
    else if c = q.mark then
      if q.several then
        match closing? q.mark (c :: cs) with
        | some r => .ok r
        | none => (quotedBody q .outside cs).map fun r => (c :: r.1, r.2)
      else .ok ([], cs)
    else if c = '\\' && q.escapes then quotedBody q .opened cs
    else if isPlain c || (q.several && c = '\n') then
      (quotedBody q .outside cs).map fun r => (c :: r.1, r.2)
    else .error .malformed

/-- Whether a character opens a quoted text. -/
def isQuote (c : Char) : Bool := c = '\x22' || c = '\x27'

/-- Reads a quoted text on one line after its opening quote. -/
def quotedLine (mark : Char) (cs : List Char) : Except Fault (String × List Char) :=
  (quotedBody ⟨mark, mark = '\x22', false⟩ .outside cs).map fun r => (String.ofList r.1, r.2)

/-- Reads a quoted text after its first quote. A line break right after three opening quotes is not
part of the text. -/
def quotedText (mark : Char) (cs : List Char) : Except Fault (String × List Char) :=
  match cs with
  | a :: b :: rest =>
    if a = mark && b = mark then
      let rest := match rest with
        | '\n' :: rest => rest
        | _ => rest
      (quotedBody ⟨mark, mark = '\x22', true⟩ .outside rest).map fun r => (String.ofList r.1, r.2)
    else quotedLine mark cs
  | _ => quotedLine mark cs

end ContractCompiler.Toml
