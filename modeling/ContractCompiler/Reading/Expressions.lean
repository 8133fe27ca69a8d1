import ContractCompiler.Reading.Types
import ContractCompiler.Tree.Expr

/-!
# Reading expressions

The grammar of expressions, from assignments down to primary expressions. Binary operators stand in
eleven tiers, loosest first; within a tier they group to the left. Assignments, conditionals, `**` and
the prefix operators group to the right.

Four forms refer to one another through `inner`, always after reading a token, so the depth of nesting
is bounded by the number of tokens.
-/

namespace ContractCompiler

/-- The tiers of binary operators. -/
inductive Tier where
  | coalesce | or | and | bitOr | bitXor | bitAnd | equality | relational | shift | additive
  | multiplicative
deriving DecidableEq, Repr

namespace Tier

/-- Every tier, the loosest first. -/
def all : List Tier :=
  [.coalesce, .or, .and, .bitOr, .bitXor, .bitAnd, .equality, .relational, .shift, .additive,
   .multiplicative]

/-- How tightly a tier binds, from 0. -/
def rank : Tier → Nat
  | .coalesce => 0
  | .or => 1
  | .and => 2
  | .bitOr => 3
  | .bitXor => 4
  | .bitAnd => 5
  | .equality => 6
  | .relational => 7
  | .shift => 8
  | .additive => 9
  | .multiplicative => 10

/-- The operator of a tier that a single token spells. -/
def operator? : Tier → TokenKind → Option BinaryOp
  | .coalesce, .mark .coalesce => some .coalesce
  | .or, .mark .orOr => some .or
  | .and, .mark .andAnd => some .and
  | .bitOr, .mark .pipe => some .bitOr
  | .bitXor, .mark .caret => some .bitXor
  | .bitAnd, .mark .amp => some .bitAnd
  | .equality, .mark .eqEq => some .eq
  | .equality, .mark .bangEq => some .notEq
  | .equality, .mark .eqEqEq => some .strictEq
  | .equality, .mark .bangEqEq => some .strictNotEq
  | .relational, .mark .lt => some .lt
  | .relational, .mark .gt => some .gt
  | .relational, .mark .le => some .le
  | .relational, .mark .ge => some .ge
  | .relational, .keyword .in_ => some .in_
  | .relational, .keyword .instanceOf => some .instanceOf
  | .shift, .mark .shl => some .shl
  | .additive, .mark .plus => some .add
  | .additive, .mark .minus => some .sub
  | .multiplicative, .mark .star => some .mul
  | .multiplicative, .mark .slash => some .div
  | .multiplicative, .mark .percent => some .rem
  | _, _ => none

end Tier

/-- The assignment a single token spells. -/
def TokenKind.assignOp? : TokenKind → Option BinaryOp
  | .mark .eq => some .assign
  | .mark .plusEq => some .addAssign
  | .mark .minusEq => some .subAssign
  | .mark .starEq => some .mulAssign
  | .mark .slashEq => some .divAssign
  | .mark .percentEq => some .remAssign
  | .mark .starStarEq => some .expAssign
  | .mark .shlEq => some .shlAssign
  | .mark .ampEq => some .bitAndAssign
  | .mark .pipeEq => some .bitOrAssign
  | .mark .caretEq => some .bitXorAssign
  | .mark .andAndEq => some .andAssign
  | .mark .orOrEq => some .orAssign
  | .mark .coalesceEq => some .coalesceAssign
  | _ => none

/-- The prefix operator a token spells. -/
def TokenKind.unaryOp? : TokenKind → Option UnaryOp
  | .mark .bang => some .not
  | .mark .minus => some .neg
  | .mark .plus => some .plus
  | .mark .tilde => some .bitNot
  | .keyword .typeof => some .typeof
  | .keyword .void => some .void
  | .keyword .delete => some .delete
  | _ => none

/-- The update operator a token spells. -/
def TokenKind.updateOp? : TokenKind → Option UpdateOp
  | .mark .plusPlus => some .increment
  | .mark .minusMinus => some .decrement
  | _ => none

/-- The literal a token spells. -/
def TokenKind.literal? : TokenKind → Option Literal
  | .number text => some (.number text)
  | .string value => some (.string value)
  | .template text => some (.template text)
  | .keyword .true_ => some (.bool true)
  | .keyword .false_ => some (.bool false)
  | .keyword .null => some .null
  | .keyword .undefined => some .undefined
  | _ => none

namespace Cursor

/-- The binary operator of a tier at the cursor, with the number of tokens it takes. -/
def binaryOp? (c : Cursor) (tier : Tier) : Option (BinaryOp × Nat) :=
  match c.rightShift? with
  | some (op, len) => if tier = .shift ∧ !op.isAssignment then some (op, len) else none
  | none => (tier.operator? c.here.kind).map fun op => (op, 1)

/-- The assignment at the cursor, with the number of tokens it takes. -/
def assignOp? (c : Cursor) : Option (BinaryOp × Nat) :=
  match c.rightShift? with
  | some (op, len) => if op.isAssignment then some (op, len) else none
  | none => c.here.kind.assignOp?.map fun op => (op, 1)

end Cursor

/-- The forms of expression that refer to one another. -/
inductive ExprForm where
  | assignment | exponent | unary | primary
deriving DecidableEq, Repr

namespace Parser

/-- A point (or `?.`) and a member name, applied to `target`. -/
def memberSuffix (target : Expr) : Parser Expr := do
  advance
  let member ← identBy TokenKind.memberName? .memberName
  return .member (target.span.through member.span) target member

/-- The arguments of a call after its opening parenthesis, through the closing one. An argument that
cannot be read ends the list. -/
def arguments (inner : ExprForm → Parser Expr) : Parser (List Expr) := do
  if ← accept .rparen then return []
  collect do
    match ← attempt (inner .assignment) with
    | none => return ([], false)
    | some arg =>
      if ← accept .rparen then return ([arg], false)
      if ← accept .comma then
        return ([arg], !(← accept .rparen))
      else
        recordMissing .argSeparator
        return ([arg], false)

/-- The arguments after an opening parenthesis, applied to `target`. -/
def callSuffix (inner : ExprForm → Parser Expr) (target : Expr) : Parser Expr := do
  let args ← arguments inner
  return .call (← spanFrom target.span.start) target args

/-- The index after an opening bracket, applied to `target`. -/
def indexSuffix (inner : ExprForm → Parser Expr) (target : Expr) : Parser Expr := do
  let index ← inner .assignment
  expect .rbracket .indexClose
  return .index (← spanFrom target.span.start) target index

/-- One `?.` link applied to `target`: a call, an index or a member. -/
def optionalLink (inner : ExprForm → Parser Expr) (target : Expr) : Parser Expr := do
  let link ←
    match ← kindAt 1 with
    | .mark .lparen => do
      advanceBy 2
      callSuffix inner target
    | .mark .lbracket => do
      advanceBy 2
      indexSuffix inner target
    | _ => memberSuffix target
  return .optionalChain link.span link

/-- What may follow a primary expression, applied to it: a `?.` link, a `!` on the same line, a call,
a member or an index. -/
def suffix? (inner : ExprForm → Parser Expr) (target : Expr) : Parser (Option Expr) := do
  let token ← here
  match token.kind with
  | .mark .questionDot => return some (← optionalLink inner target)
  | .mark .bang =>
    if token.afterBreak then return none
    advance
    return some (.nonNull (← spanFrom target.span.start) target)
  | .mark .lparen =>
    advance
    return some (← callSuffix inner target)
  | .mark .dot => return some (← memberSuffix target)
  | .mark .lbracket =>
    advance
    return some (← indexSuffix inner target)
  | _ => return none

/-- `new`, a primary expression with members, skipped type arguments, and optional arguments. -/
def newExpr (inner : ExprForm → Parser Expr) : Parser Expr := do
  let start := (← here).span.start
  advance
  let primary ← inner .primary
  let callee ← chain (fun target => do
    if ← check (.mark .dot) then return some (← memberSuffix target) else return none) primary
  skipAngles
  let args ← if ← accept .lparen then arguments inner else pure []
  return .new (← spanFrom start) callee args

/-- One entry of an object literal; a key alone stands for the variable of that name. -/
def field (inner : ExprForm → Parser Expr) : Parser (Field Expr) := do
  let key ← declaredIdent .fieldName
  if ← accept .colon then return ⟨key, ← inner .assignment⟩ else return ⟨key, .ident key⟩

/-- A primary expression: a literal, a name, `this`, `super`, `new`, or something in brackets. -/
def primaryExpr (inner : ExprForm → Parser Expr) : Parser Expr := do
  let token ← here
  match token.kind.literal? with
  | some value =>
    advance
    return .literal token.span value
  | none =>
    match token.kind with
    | .keyword .this =>
      advance
      return .this token.span
    | .keyword .super =>
      advance
      return .super token.span
    | .keyword .new => newExpr inner
    | .mark .lparen =>
      advance
      let e ← inner .assignment
      expect .rparen .parenClose
      return .paren (← spanFrom token.span.start) e
    | .mark .lbracket =>
      advance
      let elements ← listUpTo .rbracket .elementSeparator (inner .assignment)
      return .array (← spanFrom token.span.start) elements
    | .mark .lbrace =>
      advance
      let fields ← listUpTo .rbrace .fieldSeparator (field inner)
      return .object (← spanFrom token.span.start) fields
    | _ => return .ident (← bindingIdent .expression)

/-- A primary expression with everything that follows it. -/
def postfixExpr (inner : ExprForm → Parser Expr) : Parser Expr := do
  chain (suffix? inner) (← primaryExpr inner)

/-- Prefix operators, or a primary expression with what follows it and an update on the same line. -/
def unaryExpr (inner : ExprForm → Parser Expr) : Parser Expr := do
  let token ← here
  let start := token.span.start
  match token.kind.unaryOp?, token.kind.updateOp? with
  | some op, _ =>
    advance
    let e ← inner .unary
    return .unary (← spanFrom start) op e
  | none, some op =>
    advance
    let e ← inner .unary
    return .update (← spanFrom start) op true e
  | none, none =>
    let e ← postfixExpr inner
    let next ← here
    match next.kind.updateOp? with
    | some op =>
      if next.afterBreak then return e
      advance
      return .update (← spanFrom start) op false e
    | none => return e

/-- A unary expression, or a power of one. -/
def exponentExpr (inner : ExprForm → Parser Expr) : Parser Expr := do
  let base ← unaryExpr inner
  if ← accept .starStar then
    let exponent ← inner .exponent
    return .binary (base.span.through exponent.span) .exp base exponent
  else return base

/-- The type after `as`, where the word `const` stands for a type too. -/
def asTarget : Parser TypeExpr := do
  let token ← here
  if token.kind = .keyword .const then
    advance
    return .named token.span [⟨Keyword.const.spelling, token.span⟩] []
  else typeExpr

/-- A type assertion after `left`, if one follows on the same line. -/
def assertion? (left : Expr) : Parser (Option Expr) := do
  let token ← here
  if token.afterBreak then return none
  else if token.kind = .keyword .as then
    advance
    let type ← asTarget
    return some (.asType (left.span.through type.span) left type)
  else if token.kind = .keyword .satisfies then
    advance
    let type ← typeExpr
    return some (.satisfiesType (left.span.through type.span) left type)
  else return none

/-- An operator of the tier and its right operand after `left`. -/
def operation? (tier : Tier) (operand : Parser Expr) (left : Expr) : Parser (Option Expr) := do
  match (← get).binaryOp? tier with
  | some (op, len) =>
    advanceBy len
    let right ← operand
    return some (.binary (left.span.through right.span) op left right)
  | none => return none

/-- What extends `left` within a tier. Type assertions belong to the relational tier. -/
def tierStep (tier : Tier) (operand : Parser Expr) (left : Expr) : Parser (Option Expr) := do
  if tier = .relational then
    match ← assertion? left with
    | some e => return some e
    | none => operation? tier operand left
  else operation? tier operand left

/-- Binary expressions of the given tiers, the loosest first. -/
def binaryExpr (inner : ExprForm → Parser Expr) : List Tier → Parser Expr
  | [] => exponentExpr inner
  | tier :: tighter => do
    chain (tierStep tier (binaryExpr inner tighter)) (← binaryExpr inner tighter)

/-- A binary expression, or a conditional on one. -/
def conditionalExpr (inner : ExprForm → Parser Expr) : Parser Expr := do
  let test ← binaryExpr inner Tier.all
  if ← accept .question then
    let consequent ← inner .assignment
    expect .colon .conditionalColon
    let alternate ← inner .assignment
    return .conditional (test.span.through alternate.span) test consequent alternate
  else return test

/-- A conditional expression, or an assignment to one. -/
def assignmentExpr (inner : ExprForm → Parser Expr) : Parser Expr := do
  let left ← conditionalExpr inner
  match (← get).assignOp? with
  | some (op, len) =>
    advanceBy len
    let right ← inner .assignment
    return .binary (left.span.through right.span) op left right
  | none => return left

/-- An expression of the given form, with what stands inside it read by `inner`. -/
def exprLayer (inner : ExprForm → Parser Expr) : ExprForm → Parser Expr
  | .assignment => assignmentExpr inner
  | .exponent => exponentExpr inner
  | .unary => unaryExpr inner
  | .primary => primaryExpr inner

/-- An expression of the given form with fewer than `n` expressions around one another. -/
def exprWithin : Nat → ExprForm → Parser Expr
  | 0, _ => fail .exhausted
  | n + 1, form => exprLayer (exprWithin n) form

/-- An expression of the given form. -/
def exprOf (form : ExprForm) : Parser Expr := bounded fun n => exprWithin n form

/-- An expression. -/
def expression : Parser Expr := exprOf .assignment

/-- The arguments of a decorator after its opening parenthesis. -/
def decoratorArgs : Parser (List Expr) := arguments fun _ => expression

end Parser

end ContractCompiler
