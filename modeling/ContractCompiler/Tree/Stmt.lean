import ContractCompiler.Tree.Expr

/-!
# Statements

The tree of a statement. `Stmt.exprs` and `Stmt.stmts` are the expressions and the statements a
statement directly holds.
-/

namespace ContractCompiler

/-- The word a variable is declared with. -/
inductive VarKind where
  | const | let_ | var
deriving DecidableEq, Repr

/-- One `name[: Type][ = init]` of a variable statement. -/
structure Declarator where
  name : Ident
  type : Option TypeExpr
  init : Option Expr
  span : Span
deriving Repr

/-- What a `for` over a collection goes through: its values (`of`) or its keys (`in`). -/
inductive Traversal where
  | values | keys
deriving DecidableEq, Repr

/-- A statement. -/
inductive Stmt where
  | var (span : Span) (kind : VarKind) (decls : List Declarator)
  | expr (span : Span) (expr : Expr)
  | return_ (span : Span) (value : Option Expr)
  | if_ (span : Span) (cond : Expr) (thenBranch : Stmt) (elseBranch : Option Stmt)
  | while_ (span : Span) (cond : Expr) (body : Stmt)
  | doWhile (span : Span) (body : Stmt) (cond : Expr)
  | for_ (span : Span) (init : Option Stmt) (test update : Option Expr) (body : Stmt)
  | forEach (span : Span) (kind : VarKind) (binding : Ident) (traversal : Traversal) (iterable : Expr)
      (body : Stmt)
  | break_ (span : Span)
  | continue_ (span : Span)
  | throw (span : Span) (value : Expr)
  | block (span : Span) (stmts : List Stmt)
  | empty (span : Span)
deriving Repr

/-- Statements between braces. -/
structure Block where
  stmts : List Stmt
  span : Span
deriving Repr

namespace Stmt

/-- Where a statement was read. -/
def span : Stmt → Span
  | .var s _ _ | .expr s _ | .return_ s _ | .if_ s _ _ _ | .while_ s _ _ | .doWhile s _ _
  | .for_ s _ _ _ _ | .forEach s _ _ _ _ _ | .break_ s | .continue_ s | .throw s _ | .block s _
  | .empty s => s

/-- The name of a statement's kind, as placeholders and messages give it. -/
def kindName : Stmt → String
  | .var .. => "VariableStatement"
  | .expr .. => "ExpressionStatement"
  | .return_ .. => "Return"
  | .if_ .. => "If"
  | .while_ .. => "While"
  | .doWhile .. => "DoWhile"
  | .for_ .. => "For"
  | .forEach _ _ _ .values _ _ => "ForOf"
  | .forEach _ _ _ .keys _ _ => "ForIn"
  | .break_ .. => "Break"
  | .continue_ .. => "Continue"
  | .throw .. => "Throw"
  | .block .. => "Block"
  | .empty .. => "Empty"

/-- The expressions a statement directly holds. -/
def exprs : Stmt → List Expr
  | .var _ _ decls => decls.filterMap Declarator.init
  | .expr _ e | .throw _ e => [e]
  | .return_ _ value => value.toList
  | .if_ _ cond _ _ | .while_ _ cond _ | .doWhile _ _ cond => [cond]
  | .for_ _ _ test update _ => test.toList ++ update.toList
  | .forEach _ _ _ _ iterable _ => [iterable]
  | .break_ _ | .continue_ _ | .block .. | .empty _ => []

/-- The statements a statement directly holds, in source order. -/
def stmts : Stmt → List Stmt
  | .if_ _ _ thenBranch elseBranch => thenBranch :: elseBranch.toList
  | .while_ _ _ body | .doWhile _ body _ | .forEach _ _ _ _ _ body => [body]
  | .for_ _ init _ _ body => init.toList ++ [body]
  | .block _ stmts => stmts
  | .var .. | .expr .. | .return_ .. | .break_ _ | .continue_ _ | .throw .. | .empty _ => []

/-- The names a statement declares into the block it stands in. -/
def declaredNames : Stmt → List String
  | .var _ _ decls => decls.map fun d => d.name.name
  | _ => []

mutual

/-- The expressions a statement holds at any depth: its own before those of the statements in it. -/
def allExprs : Stmt → List Expr
  | .var _ _ decls => decls.filterMap Declarator.init
  | .expr _ e | .throw _ e => [e]
  | .return_ _ value => value.toList
  | .if_ _ cond thenBranch elseBranch => cond :: (thenBranch.allExprs ++ allExprsOption elseBranch)
  | .while_ _ cond body | .doWhile _ body cond => cond :: body.allExprs
  | .for_ _ init test update body =>
    test.toList ++ update.toList ++ (allExprsOption init ++ body.allExprs)
  | .forEach _ _ _ _ iterable body => iterable :: body.allExprs
  | .break_ _ | .continue_ _ | .empty _ => []
  | .block _ stmts => allExprsList stmts

/-- The expressions held by an optional statement. -/
def allExprsOption : Option Stmt → List Expr
  | none => []
  | some s => s.allExprs

/-- The expressions held by a list of statements. -/
def allExprsList : List Stmt → List Expr
  | [] => []
  | s :: ss => s.allExprs ++ allExprsList ss

end

theorem allExprsList_eq_flatMap (ss : List Stmt) : allExprsList ss = ss.flatMap allExprs := by
  induction ss with
  | nil => rfl
  | cons s ss ih => rw [allExprsList, ih, List.flatMap_cons]

theorem allExprsOption_eq_flatMap (s : Option Stmt) :
    allExprsOption s = s.toList.flatMap allExprs := by
  cases s <;> simp [allExprsOption]

/-- All expressions of a statement are its own and those of the statements it directly holds. -/
theorem allExprs_eq (s : Stmt) : s.allExprs = s.exprs ++ s.stmts.flatMap allExprs := by
  cases s <;>
    simp [allExprs, exprs, stmts, allExprsList_eq_flatMap, allExprsOption_eq_flatMap]

end Stmt

end ContractCompiler
