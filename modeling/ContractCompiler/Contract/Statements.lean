import ContractCompiler.Contract.Expressions
import ContractCompiler.Contract.Types

/-!
# Writing statements

A statement is written onto the last line of the page; whoever writes it starts that line. The body of
an `else` stays at the depth of its `if`.
-/

namespace ContractCompiler

namespace Writing

/-- Writes an expression on the last line. -/
def pushExpr (b : Bindings) (e : Expr) : Writing RenderError Unit := do
  push (← (Rendering.expr b e).onPage)

/-- The type of a local variable: that of its annotation, or `var`. -/
def localType : Option TypeExpr → Except RenderError String
  | some type => type.solidity
  | none => .ok "var"

/-- Writes one declared variable on the last line. -/
def declarator (b : Bindings) (d : Declarator) : Writing RenderError Unit := do
  match d.init with
  | none => throw (.missingInit d.name.name d.span)
  | some init =>
    let type ← ofExcept (localType d.type)
    push (type ++ " " ++ d.name.name ++ " = ")
    pushExpr b init
    push ";"

/-- Writes the declared variables after the first, each on a line of its own. -/
def moreDeclarators (b : Bindings) : List Declarator → Writing RenderError Unit
  | [] => pure ()
  | d :: ds => do
    line ""
    declarator b d
    moreDeclarators b ds

/-- Writes declared variables, the first on the last line. -/
def declarators (b : Bindings) : List Declarator → Writing RenderError Unit
  | [] => pure ()
  | d :: ds => do
    declarator b d
    moreDeclarators b ds

/-- The failure of the first unknown access inside a statement. -/
def firstUnknown? (b : Bindings) (s : Stmt) : Option RenderError :=
  s.allExprs.findSome? (Expr.firstUnknown? b)

/-- Writes a placeholder for a statement. -/
def stmtPlaceholder (b : Bindings) (s : Stmt) : Writing RenderError Unit := do
  match firstUnknown? b s with
  | some e => throw e
  | none =>
    note (.unsupportedStmt s.kindName s.span)
    push ("/* <statement kind=" ++ s.kindName ++ " /> */")

/-- Where a statement is written: on the last line of the page, which its list has started, or as the
branch of an `if` or the body of a loop. -/
inductive Place where
  | lastLine | branch
deriving DecidableEq, Repr

/-- Starts the line of a statement that is a branch by itself. -/
def Place.start : Place → Writing RenderError Unit
  | .lastLine => pure ()
  | .branch => line ""

mutual

/-- Writes a statement. A block that is a branch contributes its statements. -/
def stmtAt (b : Bindings) (place : Place) (s : Stmt) : Writing RenderError Unit :=
  match s with
  | .return_ _ value => do
    place.start
    push "return"
    match value with
    | some e => do
      push " "
      pushExpr b e
    | none => pure ()
    push ";"
  | .if_ _ cond thenBranch elseBranch => do
    place.start
    push "if ("
    pushExpr b cond
    push ") \x7b"
    indented (stmtAt b .branch thenBranch)
    line "\x7d"
    elseAt b elseBranch
  | .var _ _ decls => do
    place.start
    declarators b decls
  | .expr _ e => do
    place.start
    pushExpr b e
    push ";"
  | .while_ _ cond body => do
    place.start
    push "while ("
    pushExpr b cond
    push ") \x7b"
    indented (stmtAt b .branch body)
    line "\x7d"
  | .block _ ss =>
    match place with
    | .branch => stmts b ss
    | .lastLine => stmtPlaceholder b s
  | .doWhile .. | .for_ .. | .forEach .. | .break_ _ | .continue_ _ | .throw .. | .empty _ => do
    place.start
    stmtPlaceholder b s

/-- Writes an `else`, its statements at the depth of the `if`. -/
def elseAt (b : Bindings) : Option Stmt → Writing RenderError Unit
  | none => pure ()
  | some s => do
    line "else \x7b"
    stmtAt b .branch s
    line "\x7d"

/-- Writes each statement on a line of its own. -/
def stmts (b : Bindings) : List Stmt → Writing RenderError Unit
  | [] => pure ()
  | s :: ss => do
    line ""
    stmtAt b .lastLine s
    stmts b ss

end

end Writing

end ContractCompiler
