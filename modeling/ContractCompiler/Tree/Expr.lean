import ContractCompiler.Tree.Operator
import ContractCompiler.Tree.TypeExpr

/-!
# Expressions

The tree of an expression, every node with its span. `Expr.children` are the direct subexpressions and
`Expr.subexprs` all of them, a node before its parts.
-/

namespace ContractCompiler

/-- The value of a literal. -/
inductive Literal where
  /-- A number, exactly as written. -/
  | number (text : String)
  | string (value : String)
  | bool (value : Bool)
  | null
  | undefined
  /-- The body of a template, exactly as written. -/
  | template (text : String)
deriving DecidableEq, Repr

/-- One `key: value` entry of an object literal. -/
structure Field (α : Type) where
  key : Ident
  value : α
deriving DecidableEq, Repr

/-- An expression. -/
inductive Expr where
  | literal (span : Span) (value : Literal)
  | ident (name : Ident)
  | this (span : Span)
  | super (span : Span)
  /-- `object.member`, the member possibly private. -/
  | member (span : Span) (object : Expr) (member : Ident)
  /-- `object[index]` -/
  | index (span : Span) (object index : Expr)
  | call (span : Span) (callee : Expr) (args : List Expr)
  | binary (span : Span) (op : BinaryOp) (left right : Expr)
  | unary (span : Span) (op : UnaryOp) (operand : Expr)
  /-- `++` or `--`; `leading` says whether it stands before its operand. -/
  | update (span : Span) (op : UpdateOp) (leading : Bool) (operand : Expr)
  | conditional (span : Span) (test consequent alternate : Expr)
  | paren (span : Span) (inner : Expr)
  | array (span : Span) (elements : List Expr)
  | object (span : Span) (fields : List (Field Expr))
  | new (span : Span) (callee : Expr) (args : List Expr)
  /-- `operand as T` -/
  | asType (span : Span) (operand : Expr) (type : TypeExpr)
  /-- `operand satisfies T` -/
  | satisfiesType (span : Span) (operand : Expr) (type : TypeExpr)
  /-- `operand!` -/
  | nonNull (span : Span) (operand : Expr)
  /-- One `?.` link: the member, index or call inside was reached optionally. -/
  | optionalChain (span : Span) (link : Expr)
deriving Repr

/-- The name of a literal's kind, as placeholders and messages give it. -/
def Literal.kindName : Literal → String
  | .number _ => "NumericLiteral"
  | .string _ => "StringLiteral"
  | .bool _ => "BooleanLiteral"
  | .null => "NullLiteral"
  | .undefined => "Undefined"
  | .template _ => "TemplateLiteral"

namespace Expr

/-- Where an expression was read. -/
def span : Expr → Span
  | .literal s _ | .this s | .super s | .member s _ _ | .index s _ _ | .call s _ _
  | .binary s _ _ _ | .unary s _ _ | .update s _ _ _ | .conditional s _ _ _ | .paren s _
  | .array s _ | .object s _ | .new s _ _ | .asType s _ _ | .satisfiesType s _ _ | .nonNull s _
  | .optionalChain s _ => s
  | .ident name => name.span

/-- The name of an expression's kind, as placeholders and messages give it. -/
def kindName : Expr → String
  | .literal _ value => value.kindName
  | .ident _ => "Identifier"
  | .this _ => "This"
  | .super _ => "Super"
  | .member .. => "MemberAccess"
  | .index .. => "IndexAccess"
  | .call .. => "Call"
  | .binary .. => "Binary"
  | .unary .. => "Unary"
  | .update .. => "Update"
  | .conditional .. => "Conditional"
  | .paren .. => "Parenthesized"
  | .array .. => "ArrayLiteral"
  | .object .. => "ObjectLiteral"
  | .new .. => "New"
  | .asType .. => "AsExpression"
  | .satisfiesType .. => "SatisfiesExpression"
  | .nonNull .. => "NonNullExpression"
  | .optionalChain .. => "OptionalChain"

/-- The direct subexpressions, in source order. -/
def children : Expr → List Expr
  | .literal .. | .ident _ | .this _ | .super _ => []
  | .member _ target _ => [target]
  | .index _ target key => [target, key]
  | .call _ callee args | .new _ callee args => callee :: args
  | .binary _ _ left right => [left, right]
  | .unary _ _ e | .update _ _ _ e | .asType _ e _ | .satisfiesType _ e _ | .nonNull _ e
  | .optionalChain _ e | .paren _ e => [e]
  | .conditional _ test consequent alternate => [test, consequent, alternate]
  | .array _ elements => elements
  | .object _ fields => fields.map Field.value

mutual

/-- The expression and everything inside it, a node before its parts, parts in source order. -/
def subexprs (e : Expr) : List Expr :=
  e :: match e with
    | .literal .. | .ident _ | .this _ | .super _ => []
    | .member _ target _ => target.subexprs
    | .index _ target key => target.subexprs ++ key.subexprs
    | .call _ callee args | .new _ callee args => callee.subexprs ++ subexprsOf args
    | .binary _ _ left right => left.subexprs ++ right.subexprs
    | .unary _ _ e | .update _ _ _ e | .asType _ e _ | .satisfiesType _ e _ | .nonNull _ e
    | .optionalChain _ e | .paren _ e => e.subexprs
    | .conditional _ test consequent alternate =>
      test.subexprs ++ (consequent.subexprs ++ alternate.subexprs)
    | .array _ elements => subexprsOf elements
    | .object _ fields => subexprsOfFields fields

/-- The expressions inside a list of expressions. -/
def subexprsOf : List Expr → List Expr
  | [] => []
  | e :: es => e.subexprs ++ subexprsOf es

/-- The expressions inside the values of an object literal. -/
def subexprsOfFields : List (Field Expr) → List Expr
  | [] => []
  | ⟨_, e⟩ :: fields => e.subexprs ++ subexprsOfFields fields

end

theorem subexprsOf_eq_flatMap (es : List Expr) : subexprsOf es = es.flatMap subexprs := by
  induction es with
  | nil => rfl
  | cons e es ih => rw [subexprsOf, ih, List.flatMap_cons]

theorem subexprsOfFields_eq_flatMap (fields : List (Field Expr)) :
    subexprsOfFields fields = (fields.map Field.value).flatMap subexprs := by
  induction fields with
  | nil => rfl
  | cons f fields ih => rw [subexprsOfFields, ih, List.map_cons, List.flatMap_cons]

/-- The expressions inside `e` are `e` and the expressions inside its direct subexpressions. -/
theorem subexprs_eq (e : Expr) : e.subexprs = e :: e.children.flatMap subexprs := by
  cases e <;>
    simp [subexprs, children, subexprsOf_eq_flatMap, subexprsOfFields_eq_flatMap, List.flatMap_map]

end Expr

end ContractCompiler
