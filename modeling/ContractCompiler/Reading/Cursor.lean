import ContractCompiler.Token.Basic
import ContractCompiler.Tree.Operator

/-!
# Cursors

A cursor is a place in a list of tokens: the tokens behind it, the token it is at, and the tokens
ahead. It never moves back and never past the end of the input.
-/

namespace ContractCompiler

/-- A place in a list of tokens. -/
structure Cursor where
  /-- The tokens already read, the last one first. -/
  behind : List Token
  here : Token
  ahead : List Token
deriving Repr

/-- What to do with the token at the cursor while skipping. -/
inductive Skip (σ : Type) where
  /-- Leave it and stop. -/
  | leave
  /-- Take it and stop. -/
  | last
  /-- Take it and go on in the given state. -/
  | take (state : σ)

namespace Cursor

/-- The cursor at the first token of a list. -/
def start : List Token → Cursor
  | t :: ts => ⟨[], t, ts⟩
  | [] => ⟨[], ⟨.endOfInput, ⟨0, 0⟩, false⟩, []⟩

/-- Whether everything has been read. -/
def atEnd (c : Cursor) : Bool := c.here.kind = .endOfInput

/-- The cursor one token further; at the end of the input it stays. -/
def advance (c : Cursor) : Cursor :=
  if c.atEnd then c
  else match c.ahead with
    | [] => c
    | t :: ts => ⟨c.here :: c.behind, t, ts⟩

/-- The token `n` places ahead. -/
def tokenAt (c : Cursor) : Nat → Option Token
  | 0 => some c.here
  | n + 1 => c.ahead[n]?

/-- The kind of the token `n` places ahead. -/
def kindAt (c : Cursor) (n : Nat) : TokenKind := ((c.tokenAt n).map Token.kind).getD .endOfInput

/-- Where the last token read ends. -/
def lastStop (c : Cursor) : Nat := (c.behind.headD c.here).span.stop

/-- The span from `start` to the end of the last token read. -/
def spanFrom (c : Cursor) (start : Nat) : Span := ⟨start, max c.lastStop start⟩

/-- Whether the token `n` places ahead ends where the one after it starts. -/
def joined (c : Cursor) (n : Nat) : Bool :=
  match c.tokenAt n, c.tokenAt (n + 1) with
  | some a, some b => a.span.stop = b.span.start
  | _, _ => false

/-- The right shift, or assignment by right shift, that adjacent tokens at the cursor spell, with the
number of tokens it takes. -/
def rightShift? (c : Cursor) : Option (BinaryOp × Nat) :=
  if c.here.kind = .mark .gt ∧ c.joined 0 then
    match c.kindAt 1 with
    | .mark .ge => some (.shrAssign, 2)
    | .mark .gt =>
      if c.joined 1 then
        match c.kindAt 2 with
        | .mark .gt => some (.ushr, 3)
        | .mark .ge => some (.ushrAssign, 3)
        | _ => some (.shr, 2)
      else some (.shr, 2)
    | _ => none
  else none

/-- Skips a list in angle brackets, up to the bracket that closes the first one; `depth` brackets are
open. -/
def angleStep (depth : Nat) : TokenKind → Skip Nat
  | .mark .lt => .take (depth + 1)
  | .mark .gt => if depth ≤ 1 then .last else .take (depth - 1)
  | _ => .take depth

/-- Skips the rest of a class header, up to its opening brace. -/
def headerStep (_ : Unit) : TokenKind → Skip Unit
  | .mark .lbrace => .leave
  | _ => .take ()

/-- Skips the rest of a malformed statement, up to a semicolon or a closing brace. -/
def stmtStep (_ : Unit) : TokenKind → Skip Unit
  | .mark .semicolon | .mark .rbrace => .leave
  | _ => .take ()

/-- Skips the rest of a malformed class member: through a semicolon or through the brace that closes
its body, or up to the brace that closes the class; `depth` braces are open. -/
def memberStep (depth : Nat) : TokenKind → Skip Nat
  | .mark .lbrace => .take (depth + 1)
  | .mark .rbrace => if depth = 0 then .leave else if depth = 1 then .last else .take (depth - 1)
  | .mark .semicolon => if depth = 0 then .last else .take depth
  | _ => .take depth

/-- How far the skipping of an opaque item has come. -/
inductive OtherState where
  /-- Nothing has been taken. -/
  | fresh
  /-- Inside the item, with `depth` brackets open. -/
  | within (depth : Nat)
  /-- After its closing brace. -/
  | closed
deriving DecidableEq, Repr

/-- Whether a token of this kind starts an item of its own. -/
def startsItem : TokenKind → Bool
  | .keyword .export_ | .keyword .import_ | .keyword .class_ | .keyword .abstract
  | .mark .atSign => true
  | _ => false

/-- Takes a token of an opaque item with `depth` brackets open. -/
def otherTake (depth : Nat) : TokenKind → Skip OtherState
  | .mark .lparen | .mark .lbrace | .mark .lbracket => .take (.within (depth + 1))
  | .mark .rparen | .mark .rbracket => .take (.within (depth - 1))
  | .mark .rbrace => if depth ≤ 1 then .take .closed else .take (.within (depth - 1))
  | .mark .semicolon => if depth = 0 then .last else .take (.within depth)
  | _ => .take (.within depth)

/-- Skips an opaque item: through a semicolon outside all brackets, or through a closing brace that
leaves no bracket open and a semicolon right after it, or up to a token that starts another item. -/
def otherStep : OtherState → TokenKind → Skip OtherState
  | .fresh, kind => otherTake 0 kind
  | .within depth, kind => if depth = 0 ∧ startsItem kind then .leave else otherTake depth kind
  | .closed, .mark .semicolon => .last
  | .closed, _ => .leave

end Cursor

end ContractCompiler
