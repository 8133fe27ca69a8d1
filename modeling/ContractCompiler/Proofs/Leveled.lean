import ContractCompiler.Reading.Expressions

/-!
# Levels of expressions

Every expression has a rank, by its outermost operator: assignments and conditionals are loosest, then come the
tiers of binary operators, powers, prefix operators and updates, and everything that holds together by itself. An
expression is leveled when no operand is looser than its place allows, so that it can be written without further
parentheses.
-/

namespace ContractCompiler

namespace BinaryOp

/-- The tier of a binary operator. Powers and assignments have none. -/
def tier? : BinaryOp → Option Tier
  | .coalesce => some .coalesce
  | .or => some .or
  | .and => some .and
  | .bitOr => some .bitOr
  | .bitXor => some .bitXor
  | .bitAnd => some .bitAnd
  | .eq | .notEq | .strictEq | .strictNotEq => some .equality
  | .lt | .gt | .le | .ge | .in_ | .instanceOf => some .relational
  | .shl | .shr | .ushr => some .shift
  | .add | .sub => some .additive
  | .mul | .div | .rem => some .multiplicative
  | _ => none

/-- The tokens that spell a binary operator. The right shifts take several, with nothing between them. -/
def kinds : BinaryOp → List TokenKind
  | .bitAnd => [.mark .amp]
  | .bitOr => [.mark .pipe]
  | .bitXor => [.mark .caret]
  | .and => [.mark .andAnd]
  | .or => [.mark .orOr]
  | .coalesce => [.mark .coalesce]
  | .add => [.mark .plus]
  | .sub => [.mark .minus]
  | .mul => [.mark .star]
  | .div => [.mark .slash]
  | .rem => [.mark .percent]
  | .exp => [.mark .starStar]
  | .shl => [.mark .shl]
  | .shr => [.mark .gt, .mark .gt]
  | .ushr => [.mark .gt, .mark .gt, .mark .gt]
  | .lt => [.mark .lt]
  | .gt => [.mark .gt]
  | .le => [.mark .le]
  | .ge => [.mark .ge]
  | .in_ => [.keyword .in_]
  | .instanceOf => [.keyword .instanceOf]
  | .eq => [.mark .eqEq]
  | .notEq => [.mark .bangEq]
  | .strictEq => [.mark .eqEqEq]
  | .strictNotEq => [.mark .bangEqEq]
  | .assign => [.mark .eq]
  | .addAssign => [.mark .plusEq]
  | .subAssign => [.mark .minusEq]
  | .mulAssign => [.mark .starEq]
  | .divAssign => [.mark .slashEq]
  | .remAssign => [.mark .percentEq]
  | .expAssign => [.mark .starStarEq]
  | .shlAssign => [.mark .shlEq]
  | .shrAssign => [.mark .gt, .mark .ge]
  | .ushrAssign => [.mark .gt, .mark .gt, .mark .ge]
  | .bitAndAssign => [.mark .ampEq]
  | .bitOrAssign => [.mark .pipeEq]
  | .bitXorAssign => [.mark .caretEq]
  | .andAssign => [.mark .andAndEq]
  | .orAssign => [.mark .orOrEq]
  | .coalesceAssign => [.mark .coalesceEq]

end BinaryOp

/-- How tightly an expression holds together, the loosest first. -/
inductive Rank where
  /-- Assignments and conditionals. -/
  | assignment
  | tier (tier : Tier)
  /-- Powers. -/
  | power
  /-- Prefix operators and updates. -/
  | unary
  /-- A primary expression with what follows it. -/
  | suffixed
  /-- A primary expression followed by members only, as `new` takes it. -/
  | callee
  | primary
deriving DecidableEq, Repr

namespace Rank

/-- The place of a rank, from 0. -/
def toNat : Rank → Nat
  | .assignment => 0
  | .tier t => t.rank + 1
  | .power => 12
  | .unary => 13
  | .suffixed => 14
  | .callee => 15
  | .primary => 16

instance : LE Rank := ⟨fun a b => a.toNat ≤ b.toNat⟩

instance : LT Rank := ⟨fun a b => a.toNat < b.toNat⟩

instance (a b : Rank) : Decidable (a ≤ b) := inferInstanceAs (Decidable (a.toNat ≤ b.toNat))

instance (a b : Rank) : Decidable (a < b) := inferInstanceAs (Decidable (a.toNat < b.toNat))

/-- Ranks are compared by their places. -/
theorem le_iff {a b : Rank} : a ≤ b ↔ a.toNat ≤ b.toNat := Iff.rfl

theorem lt_iff {a b : Rank} : a < b ↔ a.toNat < b.toNat := Iff.rfl

/-- The ranks of the tiers come after that of assignments. -/
theorem toNat_tier (t : Tier) : (Rank.tier t).toNat = t.rank + 1 := rfl

end Rank

/-- There are eleven tiers. -/
theorem Tier.rank_le (t : Tier) : t.rank ≤ 10 := by
  cases t <;> decide

namespace Expr

/-- What holds of everything inside an expression holds of it and of everything inside its direct subexpressions. -/
theorem forall_subexprs_iff {P : Expr → Prop} {e : Expr} :
    (∀ x ∈ e.subexprs, P x) ↔ P e ∧ ∀ c ∈ e.children, ∀ x ∈ c.subexprs, P x := by
  rw [subexprs_eq, List.forall_mem_cons, List.forall_mem_flatMap]

/-- An expression is the first of those inside it. -/
theorem mem_subexprs_self (e : Expr) : e ∈ e.subexprs := by
  rw [subexprs_eq]
  exact List.mem_cons_self

/-- The rank of an expression: that of its outermost operator. -/
def rank : Expr → Rank
  | .binary _ op _ _ =>
    match op.tier? with
    | some t => .tier t
    | none => if op = .exp then .power else .assignment
  | .conditional .. => .assignment
  | .asType .. | .satisfiesType .. => .tier .relational
  | .unary .. | .update .. => .unary
  | _ => .suffixed

/-- A member, an index or a call: what one `?.` reaches. -/
def isLink : Expr → Bool
  | .member .. | .index .. | .call .. => true
  | _ => false

/-- A primary expression followed by members only. -/
def isCallee : Expr → Bool
  | .literal .. | .ident _ | .this _ | .super _ | .paren .. | .array .. | .object .. | .new .. => true
  | .member _ target _ => target.isCallee
  | _ => false

/-- No operand, here or deeper, is looser than its place allows. -/
inductive Leveled : Expr → Prop where
  | literal (span : Span) (value : Literal) : Leveled (.literal span value)
  | ident (name : Ident) : Leveled (.ident name)
  | this (span : Span) : Leveled (.this span)
  | super (span : Span) : Leveled (.super span)
  | member {span : Span} {target : Expr} {name : Ident} :
      target.Leveled → .suffixed ≤ target.rank → Leveled (.member span target name)
  | index {span : Span} {target key : Expr} :
      target.Leveled → .suffixed ≤ target.rank → key.Leveled → Leveled (.index span target key)
  | call {span : Span} {callee : Expr} {args : List Expr} :
      callee.Leveled → .suffixed ≤ callee.rank → (∀ a ∈ args, a.Leveled) → Leveled (.call span callee args)
  | operation {span : Span} {op : BinaryOp} {tier : Tier} {left right : Expr} :
      op.tier? = some tier → left.Leveled → .tier tier ≤ left.rank → right.Leveled → .tier tier < right.rank →
        Leveled (.binary span op left right)
  | power {span : Span} {left right : Expr} :
      left.Leveled → .unary ≤ left.rank → right.Leveled → .power ≤ right.rank →
        Leveled (.binary span .exp left right)
  | assignment {span : Span} {op : BinaryOp} {left right : Expr} :
      op.isAssignment = true → left.Leveled → .assignment < left.rank → right.Leveled →
        Leveled (.binary span op left right)
  | unary {span : Span} {op : UnaryOp} {e : Expr} : e.Leveled → .unary ≤ e.rank → Leveled (.unary span op e)
  | leading {span : Span} {op : UpdateOp} {e : Expr} :
      e.Leveled → .unary ≤ e.rank → Leveled (.update span op true e)
  | trailing {span : Span} {op : UpdateOp} {e : Expr} :
      e.Leveled → .suffixed ≤ e.rank → Leveled (.update span op false e)
  | conditional {span : Span} {test consequent alternate : Expr} :
      test.Leveled → .assignment < test.rank → consequent.Leveled → alternate.Leveled →
        Leveled (.conditional span test consequent alternate)
  | paren {span : Span} {e : Expr} : e.Leveled → Leveled (.paren span e)
  | array {span : Span} {elements : List Expr} : (∀ e ∈ elements, e.Leveled) → Leveled (.array span elements)
  | object {span : Span} {fields : List (Field Expr)} :
      (∀ f ∈ fields, f.value.Leveled) → Leveled (.object span fields)
  | new {span : Span} {callee : Expr} {args : List Expr} :
      callee.Leveled → callee.isCallee = true → (∀ a ∈ args, a.Leveled) → Leveled (.new span callee args)
  | asType {span : Span} {e : Expr} {type : TypeExpr} :
      e.Leveled → .tier .relational ≤ e.rank → Leveled (.asType span e type)
  | satisfiesType {span : Span} {e : Expr} {type : TypeExpr} :
      e.Leveled → .tier .relational ≤ e.rank → Leveled (.satisfiesType span e type)
  | nonNull {span : Span} {e : Expr} : e.Leveled → .suffixed ≤ e.rank → Leveled (.nonNull span e)
  | optionalChain {span : Span} {link : Expr} :
      link.Leveled → link.isLink = true → Leveled (.optionalChain span link)

/-- An operator of a tier has the rank of the tier. -/
theorem rank_of_tier {op : BinaryOp} {t : Tier} (h : op.tier? = some t) (span : Span) (l r : Expr) :
    (Expr.binary span op l r).rank = .tier t := by
  simp [rank, h]

/-- An assignment has the rank of assignments. -/
theorem rank_of_isAssignment {op : BinaryOp} (h : op.isAssignment = true) (span : Span) (l r : Expr) :
    (Expr.binary span op l r).rank = .assignment := by
  cases op <;> first | rfl | cases h

end Expr

end ContractCompiler
