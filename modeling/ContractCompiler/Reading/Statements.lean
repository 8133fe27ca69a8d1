import ContractCompiler.Reading.Expressions
import ContractCompiler.Tree.Stmt

/-!
# Reading statements

The grammar of statements and blocks. A statement that cannot be read is skipped up to the next
semicolon or closing brace, and the block goes on after it.
-/

namespace ContractCompiler

/-- The kind of variable a token declares. -/
def TokenKind.varKind? : TokenKind → Option VarKind
  | .keyword .const => some .const
  | .keyword .let_ => some .let_
  | .keyword .var => some .var
  | _ => none

namespace Parser

/-- The end of a statement: a semicolon, or an implied one before a closing brace, at the end of the
input or before a line break. -/
def terminator : Parser Unit := do
  if ← accept .semicolon then return
  let token ← here
  unless token.kind = .mark .rbrace || token.kind = .endOfInput || token.afterBreak do
    missing .terminator

/-- A condition in parentheses after the word of `construct`. -/
def condition (construct : Construct) : Parser Expr := do
  expect .lparen (.open_ construct)
  let cond ← expression
  expect .rparen .conditionClose
  return cond

/-- One declared variable with its optional type and initializer. -/
def declarator : Parser Declarator := do
  let token ← here
  if token.kind = .mark .lbrace || token.kind = .mark .lbracket then fail .destructuring
  let name ← bindingIdent .variableName
  discard (accept .bang)
  let type ← annotation
  let init ← after .eq expression
  return ⟨name, type, init, ← spanFrom token.span.start⟩

/-- Declared variables with commas between them. -/
def declarators : Parser (List Declarator) :=
  collect do
    let decl ← declarator
    return ([decl], ← accept .comma)

/-- Statements up to a closing brace or the end of the input. -/
def stmtsUpToBrace (inner : Parser Stmt) : Parser (List Stmt) :=
  collect do
    if ← atEnd then return ([], false)
    if ← accept .rbrace then return ([], false)
    match ← attempt inner with
    | some stmt => return ([stmt], true)
    | none =>
      skip Cursor.stmtStep ()
      discard (accept .semicolon)
      return ([], true)

/-- Statements between braces. -/
def blockOf (inner : Parser Stmt) : Parser Block := do
  let start := (← here).span.start
  expect .lbrace .block
  let stmts ← stmtsUpToBrace inner
  return ⟨stmts, ← spanFrom start⟩

/-- The rest of a `for` over a collection, after the word that declares its variable. -/
def forEachTail (inner : Parser Stmt) (start : Nat) (kind : VarKind) : Parser Stmt := do
  let binding ← bindingIdent .loopVariable
  let traversal ← if ← acceptWord .of then pure .values
    else do
      advance
      pure .keys
  let iterable ← expression
  expect .rparen .forEachClose
  let body ← inner
  return .forEach (← spanFrom start) kind binding traversal iterable body

/-- The rest of a counting `for`, after its initializer. -/
def forTail (inner : Parser Stmt) (start : Nat) (init : Option Stmt) : Parser Stmt := do
  expect .semicolon .forInitEnd
  let test ← if ← check (.mark .semicolon) then pure none else some <$> expression
  expect .semicolon .forTestEnd
  let update ← if ← check (.mark .rparen) then pure none else some <$> expression
  expect .rparen .forClose
  let body ← inner
  return .for_ (← spanFrom start) init test update body

/-- A `for` statement. -/
def forStmt (inner : Parser Stmt) : Parser Stmt := do
  let start := (← here).span.start
  advance
  expect .lparen (.open_ .for_)
  let token ← here
  match token.kind.varKind? with
  | some kind =>
    advance
    let next ← kindAt 1
    if next = .keyword .of || next = .keyword .in_ then forEachTail inner start kind
    else
      let decls ← declarators
      forTail inner start (some (.var (← spanFrom token.span.start) kind decls))
  | none =>
    if token.kind = .mark .semicolon then forTail inner start none
    else
      let e ← expression
      forTail inner start (some (.expr e.span e))

/-- A `return` with the value on its line, if there is one. -/
def returnStmt : Parser Stmt := do
  let start := (← here).span.start
  advance
  let token ← here
  let value ←
    if token.afterBreak || token.kind = .mark .semicolon || token.kind = .mark .rbrace ||
        token.kind = .endOfInput then pure none
    else some <$> expression
  terminator
  return .return_ (← spanFrom start) value

/-- An `if` with its optional `else`. -/
def ifStmt (inner : Parser Stmt) : Parser Stmt := do
  let start := (← here).span.start
  advance
  let cond ← condition .if_
  let thenBranch ← inner
  let elseBranch ← if ← acceptWord .else_ then some <$> inner else pure none
  return .if_ (← spanFrom start) cond thenBranch elseBranch

/-- A `do` statement. -/
def doStmt (inner : Parser Stmt) : Parser Stmt := do
  let start := (← here).span.start
  advance
  let body ← inner
  expectWord .while_ .doWhileWord
  let cond ← condition .doWhile
  discard (accept .semicolon)
  return .doWhile (← spanFrom start) body cond

/-- A statement, with the statements inside it read by `inner`. -/
def stmtLayer (inner : Parser Stmt) : Parser Stmt := do
  let token ← here
  let start := token.span.start
  match token.kind with
  | .mark .lbrace =>
    let block ← blockOf inner
    return .block block.span block.stmts
  | .mark .semicolon =>
    advance
    return .empty (← spanFrom start)
  | .keyword .return_ => returnStmt
  | .keyword .if_ => ifStmt inner
  | .keyword .while_ =>
    advance
    let cond ← condition .while_
    let body ← inner
    return .while_ (← spanFrom start) cond body
  | .keyword .do_ => doStmt inner
  | .keyword .for_ => forStmt inner
  | .keyword .break_ =>
    advance
    terminator
    return .break_ (← spanFrom start)
  | .keyword .continue_ =>
    advance
    terminator
    return .continue_ (← spanFrom start)
  | .keyword .throw =>
    advance
    let value ← expression
    terminator
    return .throw (← spanFrom start) value
  | kind =>
    match kind.varKind? with
    | some varKind =>
      advance
      let decls ← declarators
      terminator
      return .var (← spanFrom start) varKind decls
    | none =>
      let e ← expression
      terminator
      return .expr (← spanFrom start) e

/-- A statement with fewer than `n` statements around one another. -/
def stmtWithin : Nat → Parser Stmt
  | 0 => fail .exhausted
  | n + 1 => stmtLayer (stmtWithin n)

/-- A statement. -/
def statement : Parser Stmt := bounded stmtWithin

/-- A block. -/
def block : Parser Block := blockOf statement

end Parser

end ContractCompiler
