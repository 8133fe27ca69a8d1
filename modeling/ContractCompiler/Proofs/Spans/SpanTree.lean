import ContractCompiler.Tree.SourceFile

/-!
# Trees of spans

The spans of a syntax tree, as a tree of their own: each node with the spans of what stands directly in it, in the order of
the source. Two things that are one place in the source are one node: the key and the value of a field that is a key alone,
and the two names of an import specifier without `as`.
-/

namespace ContractCompiler

/-- A span and the spans of what stands directly in it. -/
inductive SpanTree where
  | node (span : Span) (parts : List SpanTree)

namespace SpanTree

/-- The span at the root. -/
def span : SpanTree → Span
  | .node span _ => span

/-- What stands directly in the root. -/
def parts : SpanTree → List SpanTree
  | .node _ parts => parts

/-- The span `a` ends no later than `b` starts. -/
def Before (a b : SpanTree) : Prop := a.span.stop ≤ b.span.start

/-- Every span is valid and contains the spans of its parts, which stand in the order of the source and share nothing. -/
inductive Nested (valid : Span → Prop) : SpanTree → Prop where
  | node {span : Span} {parts : List SpanTree} : valid span → (∀ p ∈ parts, p.Nested valid) →
      (∀ p ∈ parts, span.start ≤ p.span.start ∧ p.span.stop ≤ span.stop) → parts.Pairwise Before →
      Nested valid (.node span parts)

/-- The span is that of a node of the tree. -/
inductive Shows : SpanTree → Span → Prop where
  | root {span : Span} {parts : List SpanTree} : Shows (.node span parts) span
  | part {span span' : Span} {parts : List SpanTree} {p : SpanTree} : p ∈ parts → p.Shows span' →
      Shows (.node span parts) span'

variable {valid valid' : Span → Prop} {t : SpanTree} {span : Span}

/-- The span of a nested tree is valid. -/
theorem Nested.valid_span (h : t.Nested valid) : valid t.span := by
  cases h with
  | node hspan => exact hspan

/-- A tree that is nested with some spans is nested with more. -/
theorem Nested.mono (hvalid : ∀ span, valid span → valid' span) (h : t.Nested valid) : t.Nested valid' := by
  induction h with
  | node hspan _ hinside hordered ih => exact .node (hvalid _ hspan) ih hinside hordered

/-- Every span of a nested tree is valid. -/
theorem Nested.valid_of_shows (ht : t.Nested valid) (h : t.Shows span) : valid span := by
  induction h with
  | root => exact ht.valid_span
  | part hp _ ih =>
    cases ht with
    | node _ hparts => exact ih (hparts _ hp)

/-- What a part shows the whole shows. -/
theorem Shows.of_part {p : SpanTree} (hp : p ∈ t.parts) (h : p.Shows span) : t.Shows span := by
  cases t with
  | node => exact .part hp h

end SpanTree

/-! ## Names and types -/

/-- The spans of a name. -/
def Ident.tree (i : Ident) : SpanTree := .node i.span []

namespace TypeExpr

mutual

/-- The spans of an annotation. -/
def tree : TypeExpr → SpanTree
  | .keyword span _ => .node span []
  | .named span path args => .node span (path.map Ident.tree ++ trees args)
  | .array span elem => .node span [elem.tree]
  | .union span types => .node span (trees types)

/-- The spans of several annotations. -/
def trees : List TypeExpr → List SpanTree
  | [] => []
  | t :: ts => t.tree :: trees ts

end

/-- The spans of several annotations are those of each. -/
theorem trees_eq_map (ts : List TypeExpr) : trees ts = ts.map tree := by
  induction ts with
  | nil => rfl
  | cons t ts ih => rw [trees, ih, List.map_cons]

/-- The tree of an annotation has its span. -/
theorem span_tree (t : TypeExpr) : t.tree.span = t.span := by
  cases t <;> rfl

end TypeExpr

/-! ## Expressions -/

namespace Expr

/-- Whether the expression is this very name. -/
def isIdent (name : Ident) : Expr → Bool
  | .ident name' => name = name'
  | _ => false

mutual

/-- The spans of an expression. -/
def tree : Expr → SpanTree
  | .literal span _ | .this span | .super span => .node span []
  | .ident name => name.tree
  | .member span target name => .node span [target.tree, name.tree]
  | .index span target key => .node span [target.tree, key.tree]
  | .call span callee args | .new span callee args => .node span (callee.tree :: trees args)
  | .binary span _ left right => .node span [left.tree, right.tree]
  | .unary span _ e | .update span _ _ e | .paren span e | .nonNull span e | .optionalChain span e => .node span [e.tree]
  | .conditional span test consequent alternate => .node span [test.tree, consequent.tree, alternate.tree]
  | .array span elements => .node span (trees elements)
  | .object span fields => .node span (fieldTrees fields)
  | .asType span e type | .satisfiesType span e type => .node span [e.tree, type.tree]

/-- The spans of several expressions. -/
def trees : List Expr → List SpanTree
  | [] => []
  | e :: es => e.tree :: trees es

/-- The spans of the entries of an object literal. A key alone is one place. -/
def fieldTrees : List (Field Expr) → List SpanTree
  | [] => []
  | ⟨key, value⟩ :: fields => (if value.isIdent key then [key.tree] else [key.tree, value.tree]) ++ fieldTrees fields

end

/-- The spans of several expressions are those of each. -/
theorem trees_eq_map (es : List Expr) : trees es = es.map tree := by
  induction es with
  | nil => rfl
  | cons e es ih => rw [trees, ih, List.map_cons]

/-- The check for a name finds just that name. -/
theorem isIdent_eq_true_iff {name : Ident} {e : Expr} : e.isIdent name = true ↔ e = .ident name := by
  cases e <;> simp [isIdent, eq_comm]

/-- The tree of an expression has its span. -/
theorem span_tree (e : Expr) : e.tree.span = e.span := by
  cases e <;> rfl

end Expr

/-- The spans of an entry of an object literal. -/
def Field.trees (f : Field Expr) : List SpanTree :=
  if f.value.isIdent f.key then [f.key.tree] else [f.key.tree, f.value.tree]

/-- The spans of the entries of an object literal are those of each. -/
theorem Expr.fieldTrees_eq_flatMap (fields : List (Field Expr)) : fieldTrees fields = fields.flatMap Field.trees := by
  induction fields with
  | nil => rfl
  | cons f fields ih => rw [fieldTrees, ih, List.flatMap_cons, Field.trees]

/-! ## Statements -/

/-- The spans of a declared variable. -/
def Declarator.tree (d : Declarator) : SpanTree :=
  .node d.span (d.name.tree :: (d.type.toList.map TypeExpr.tree ++ d.init.toList.map Expr.tree))

namespace Stmt

mutual

/-- The spans of a statement. -/
def tree : Stmt → SpanTree
  | .var span _ decls => .node span (decls.map Declarator.tree)
  | .expr span e | .throw span e => .node span [e.tree]
  | .return_ span value => .node span (value.toList.map Expr.tree)
  | .if_ span cond thenBranch elseBranch => .node span (cond.tree :: thenBranch.tree :: optionTrees elseBranch)
  | .while_ span cond body => .node span [cond.tree, body.tree]
  | .doWhile span body cond => .node span [body.tree, cond.tree]
  | .for_ span init test update body =>
    .node span (optionTrees init ++ test.toList.map Expr.tree ++ update.toList.map Expr.tree ++ [body.tree])
  | .forEach span _ binding _ iterable body => .node span [binding.tree, iterable.tree, body.tree]
  | .break_ span | .continue_ span | .empty span => .node span []
  | .block span stmts => .node span (trees stmts)

/-- The spans of an optional statement. -/
def optionTrees : Option Stmt → List SpanTree
  | none => []
  | some s => [s.tree]

/-- The spans of several statements. -/
def trees : List Stmt → List SpanTree
  | [] => []
  | s :: ss => s.tree :: trees ss

end

/-- The spans of several statements are those of each. -/
theorem trees_eq_map (ss : List Stmt) : trees ss = ss.map tree := by
  induction ss with
  | nil => rfl
  | cons s ss ih => rw [trees, ih, List.map_cons]

theorem optionTrees_eq_map (s : Option Stmt) : optionTrees s = s.toList.map tree := by
  cases s <;> rfl

end Stmt

/-- The spans of a block. -/
def Block.tree (b : Block) : SpanTree := .node b.span (b.stmts.map Stmt.tree)

/-! ## Classes and files -/

/-- The spans of a decorator. -/
def Decorator.tree (d : Decorator) : SpanTree := .node d.span (d.name.tree :: d.args.toList.flatMap fun es => es.map Expr.tree)

/-- The spans of a parameter. -/
def Param.tree (p : Param) : SpanTree :=
  .node p.span (p.name.tree :: (p.type.toList.map TypeExpr.tree ++ p.default.toList.map Expr.tree))

/-- The spans of the parameters, the result and the body of a callable. -/
def callableTrees (params : List Param) (returns : Option TypeExpr) (body : Option Block) : List SpanTree :=
  params.map Param.tree ++ returns.toList.map TypeExpr.tree ++ body.toList.map Block.tree

/-- The spans of what a member is, its decorators apart. -/
def MemberShape.trees : MemberShape → List SpanTree
  | .property name type init => name.tree :: (type.toList.map TypeExpr.tree ++ init.toList.map Expr.tree)
  | .constructor params body => callableTrees params none body
  | .method name params returns body | .accessor _ name params returns body =>
    name.tree :: callableTrees params returns body
  | .indexSignature key keyType valueType => [key.tree, keyType.tree, valueType.tree]

/-- The spans of a member. -/
def Member.tree (m : Member) : SpanTree := .node m.span (m.decorators.map Decorator.tree ++ m.shape.trees)

/-- The spans of a class. -/
def ClassDecl.tree (c : ClassDecl) : SpanTree :=
  .node c.span (c.decorators.map Decorator.tree ++ c.name.tree :: (c.base.toList.flatMap (List.map Ident.tree) ++
    c.members.map Member.tree))

/-- The spans of an import specifier. Without `as` its two names are one. -/
def ImportSpecifier.trees (s : ImportSpecifier) : List SpanTree :=
  if s.imported = s.localName then [s.imported.tree] else [s.imported.tree, s.localName.tree]

/-- The spans of an import. -/
def Import.trees (d : Import) : List SpanTree :=
  d.default.toList.map Ident.tree ++ d.wholeModule.toList.map Ident.tree ++ d.named.flatMap ImportSpecifier.trees

/-- The spans of what an item is. -/
def ItemShape.trees : ItemShape → List SpanTree
  | .import_ d => d.trees
  | .class_ c => [c.tree]
  | .other => []

/-- The spans of an item. -/
def Item.tree (i : Item) : SpanTree := .node i.span i.shape.trees

/-- The spans of a file. -/
def SourceFile.trees (file : SourceFile) : List SpanTree := file.items.map Item.tree

end ContractCompiler
