import ContractCompiler.Tree.SourceFile

/-!
# Equality of trees

Whether two trees are equal can be decided: `same` runs down both of them and compares their parts, place by place. So what is read
from a text can be compared with a tree by running it.
-/

namespace ContractCompiler

/-! ## Annotations -/

namespace TypeExpr

mutual

/-- Whether two annotations are the same. -/
def same : TypeExpr → TypeExpr → Bool
  | .keyword s word, t => if let .keyword s' word' := t then s' == s && word' == word else false
  | .named s path args, t =>
    if let .named s' path' args' := t then s' == s && path' == path && sameAll args args' else false
  | .array s elem, t => if let .array s' elem' := t then s' == s && elem.same elem' else false
  | .union s types, t => if let .union s' types' := t then s' == s && sameAll types types' else false

/-- The same for several annotations. -/
def sameAll : List TypeExpr → List TypeExpr → Bool
  | [], ts => ts.isEmpty
  | t :: ts, us => if let t' :: ts' := us then t.same t' && sameAll ts ts' else false

end

mutual

/-- The comparison finds annotations the same just if they are equal. -/
theorem same_iff : ∀ t t' : TypeExpr, t.same t' = true ↔ t' = t
  | .keyword .., t' => by unfold same; split <;> simp_all
  | .named _ _ args, t' => by unfold same; split <;> simp_all [sameAll_iff args, and_assoc]
  | .array _ elem, t' => by unfold same; split <;> simp_all [same_iff elem]
  | .union _ types, t' => by unfold same; split <;> simp_all [sameAll_iff types]

theorem sameAll_iff : ∀ ts ts' : List TypeExpr, sameAll ts ts' = true ↔ ts' = ts
  | [], ts' => by simp [sameAll]
  | t :: ts, ts' => by unfold sameAll; split <;> simp_all [same_iff t, sameAll_iff ts]

end

instance : DecidableEq TypeExpr := fun t t' => decidable_of_iff _ (same_iff t' t)

end TypeExpr

/-! ## Expressions -/

namespace Expr

mutual

/-- Whether two expressions are the same. -/
def same : Expr → Expr → Bool
  | .literal s value, e => if let .literal s' value' := e then s' == s && value' == value else false
  | .ident name, e => if let .ident name' := e then name' == name else false
  | .this s, e => if let .this s' := e then s' == s else false
  | .super s, e => if let .super s' := e then s' == s else false
  | .member s target name, e =>
    if let .member s' target' name' := e then s' == s && target.same target' && name' == name else false
  | .index s target key, e =>
    if let .index s' target' key' := e then s' == s && target.same target' && key.same key' else false
  | .call s callee args, e =>
    if let .call s' callee' args' := e then s' == s && callee.same callee' && sameAll args args' else false
  | .binary s op l r, e =>
    if let .binary s' op' l' r' := e then s' == s && op' == op && l.same l' && r.same r' else false
  | .unary s op arg, e => if let .unary s' op' arg' := e then s' == s && op' == op && arg.same arg' else false
  | .update s op leading arg, e =>
    if let .update s' op' leading' arg' := e then s' == s && op' == op && leading' == leading && arg.same arg' else false
  | .conditional s c t f, e =>
    if let .conditional s' c' t' f' := e then s' == s && c.same c' && t.same t' && f.same f' else false
  | .paren s inner, e => if let .paren s' inner' := e then s' == s && inner.same inner' else false
  | .array s es, e => if let .array s' es' := e then s' == s && sameAll es es' else false
  | .object s fields, e => if let .object s' fields' := e then s' == s && sameFields fields fields' else false
  | .new s callee args, e =>
    if let .new s' callee' args' := e then s' == s && callee.same callee' && sameAll args args' else false
  | .asType s arg t, e => if let .asType s' arg' t' := e then s' == s && arg.same arg' && t' == t else false
  | .satisfiesType s arg t, e =>
    if let .satisfiesType s' arg' t' := e then s' == s && arg.same arg' && t' == t else false
  | .nonNull s arg, e => if let .nonNull s' arg' := e then s' == s && arg.same arg' else false
  | .optionalChain s link, e => if let .optionalChain s' link' := e then s' == s && link.same link' else false

/-- The same for several expressions. -/
def sameAll : List Expr → List Expr → Bool
  | [], es => es.isEmpty
  | e :: es, us => if let e' :: es' := us then e.same e' && sameAll es es' else false

/-- The same for the fields of an object literal. -/
def sameFields : List (Field Expr) → List (Field Expr) → Bool
  | [], fs => fs.isEmpty
  | ⟨key, e⟩ :: fs, us => if let ⟨key', e'⟩ :: fs' := us then key' == key && e.same e' && sameFields fs fs' else false

end

mutual

/-- The comparison finds expressions the same just if they are equal. -/
theorem same_iff : ∀ e e' : Expr, e.same e' = true ↔ e' = e
  | .literal .., e' => by unfold same; split <;> simp_all
  | .ident _, e' => by unfold same; split <;> simp_all
  | .this _, e' => by unfold same; split <;> simp_all
  | .super _, e' => by unfold same; split <;> simp_all
  | .member _ target _, e' => by unfold same; split <;> simp_all [same_iff target, and_assoc]
  | .index _ target key, e' => by unfold same; split <;> simp_all [same_iff target, same_iff key, and_assoc]
  | .call _ callee args, e' => by unfold same; split <;> simp_all [same_iff callee, sameAll_iff args, and_assoc]
  | .binary _ _ l r, e' => by unfold same; split <;> simp_all [same_iff l, same_iff r, and_assoc]
  | .unary _ _ arg, e' => by unfold same; split <;> simp_all [same_iff arg, and_assoc]
  | .update _ _ _ arg, e' => by unfold same; split <;> simp_all [same_iff arg, and_assoc, -Bool.forall_bool]
  | .conditional _ c t f, e' => by unfold same; split <;> simp_all [same_iff c, same_iff t, same_iff f, and_assoc]
  | .paren _ inner, e' => by unfold same; split <;> simp_all [same_iff inner]
  | .array _ es, e' => by unfold same; split <;> simp_all [sameAll_iff es]
  | .object _ fields, e' => by unfold same; split <;> simp_all [sameFields_iff fields]
  | .new _ callee args, e' => by unfold same; split <;> simp_all [same_iff callee, sameAll_iff args, and_assoc]
  | .asType _ arg _, e' => by unfold same; split <;> simp_all [same_iff arg, and_assoc]
  | .satisfiesType _ arg _, e' => by unfold same; split <;> simp_all [same_iff arg, and_assoc]
  | .nonNull _ arg, e' => by unfold same; split <;> simp_all [same_iff arg]
  | .optionalChain _ link, e' => by unfold same; split <;> simp_all [same_iff link]

theorem sameAll_iff : ∀ es es' : List Expr, sameAll es es' = true ↔ es' = es
  | [], es' => by simp [sameAll]
  | e :: es, es' => by unfold sameAll; split <;> simp_all [same_iff e, sameAll_iff es]

theorem sameFields_iff : ∀ fs fs' : List (Field Expr), sameFields fs fs' = true ↔ fs' = fs
  | [], fs' => by simp [sameFields]
  | ⟨key, e⟩ :: fs, fs' => by unfold sameFields; split <;> simp_all [same_iff e, sameFields_iff fs, and_assoc]

end

instance : DecidableEq Expr := fun e e' => decidable_of_iff _ (same_iff e' e)

end Expr

/-! ## Statements -/

deriving instance DecidableEq for Declarator

namespace Stmt

mutual

/-- Whether two statements are the same. -/
def same : Stmt → Stmt → Bool
  | .var s kind decls, t =>
    if let .var s' kind' decls' := t then s' == s && kind' == kind && decls' == decls else false
  | .expr s e, t => if let .expr s' e' := t then s' == s && e' == e else false
  | .return_ s value, t => if let .return_ s' value' := t then s' == s && value' == value else false
  | .if_ s c first other, t =>
    if let .if_ s' c' first' other' := t then s' == s && c' == c && first.same first' && sameOption other other' else false
  | .while_ s c body, t => if let .while_ s' c' body' := t then s' == s && c' == c && body.same body' else false
  | .doWhile s body c, t => if let .doWhile s' body' c' := t then s' == s && body.same body' && c' == c else false
  | .for_ s init test update body, t =>
    if let .for_ s' init' test' update' body' := t then
      s' == s && sameOption init init' && test' == test && update' == update && body.same body'
    else false
  | .forEach s kind name traversal e body, t =>
    if let .forEach s' kind' name' traversal' e' body' := t then
      s' == s && kind' == kind && name' == name && traversal' == traversal && e' == e && body.same body'
    else false
  | .break_ s, t => if let .break_ s' := t then s' == s else false
  | .continue_ s, t => if let .continue_ s' := t then s' == s else false
  | .throw s e, t => if let .throw s' e' := t then s' == s && e' == e else false
  | .block s stmts, t => if let .block s' stmts' := t then s' == s && sameAll stmts stmts' else false
  | .empty s, t => if let .empty s' := t then s' == s else false

/-- The same for a branch that may be missing. -/
def sameOption : Option Stmt → Option Stmt → Bool
  | none, u => u.isNone
  | some t, u => if let some t' := u then t.same t' else false

/-- The same for several statements. -/
def sameAll : List Stmt → List Stmt → Bool
  | [], us => us.isEmpty
  | t :: ts, us => if let t' :: ts' := us then t.same t' && sameAll ts ts' else false

end

mutual

/-- The comparison finds statements the same just if they are equal. -/
theorem same_iff : ∀ t t' : Stmt, t.same t' = true ↔ t' = t
  | .var .., t' => by unfold same; split <;> simp_all [and_assoc]
  | .expr .., t' => by unfold same; split <;> simp_all
  | .return_ .., t' => by unfold same; split <;> simp_all
  | .if_ _ _ first other, t' => by unfold same; split <;> simp_all [same_iff first, sameOption_iff other, and_assoc]
  | .while_ _ _ body, t' => by unfold same; split <;> simp_all [same_iff body, and_assoc]
  | .doWhile _ body _, t' => by unfold same; split <;> simp_all [same_iff body, and_assoc]
  | .for_ _ init _ _ body, t' => by unfold same; split <;> simp_all [same_iff body, sameOption_iff init, and_assoc]
  | .forEach _ _ _ _ _ body, t' => by unfold same; split <;> simp_all [same_iff body, and_assoc]
  | .break_ _, t' => by unfold same; split <;> simp_all
  | .continue_ _, t' => by unfold same; split <;> simp_all
  | .throw .., t' => by unfold same; split <;> simp_all
  | .block _ stmts, t' => by unfold same; split <;> simp_all [sameAll_iff stmts]
  | .empty _, t' => by unfold same; split <;> simp_all

theorem sameOption_iff : ∀ t t' : Option Stmt, sameOption t t' = true ↔ t' = t
  | none, t' => by simp [sameOption]
  | some t, t' => by unfold sameOption; split <;> simp_all [same_iff t]

theorem sameAll_iff : ∀ ts ts' : List Stmt, sameAll ts ts' = true ↔ ts' = ts
  | [], ts' => by simp [sameAll]
  | t :: ts, ts' => by unfold sameAll; split <;> simp_all [same_iff t, sameAll_iff ts]

end

instance : DecidableEq Stmt := fun t t' => decidable_of_iff _ (same_iff t' t)

end Stmt

/-! ## Classes -/

deriving instance DecidableEq for Block, Decorator, Param, MemberShape, Member, ClassDecl

end ContractCompiler
