import ContractCompiler.Proofs.Contract.Layout
import ContractCompiler.Proofs.Formatting.Accesses

/-!
# The rows of a moved class

A class that is moved has the rows of the class, and if there are none its failure is the same, moved; so the contract does
not depend on where the class stood. The bindings are asked for accesses by place, and have to know the moved ones as they
knew the others.
-/

namespace ContractCompiler

variable {f : Nat → Nat} {b b' : Bindings}

/-! ## Failures -/

/-- Turning the failure of two steps into another one turns that of each of them. -/
theorem mapError_bind {α β ε ε' : Type} (g : ε → ε') (x : Except ε α) (k : α → Except ε β) :
    (x >>= k).mapError g = x.mapError g >>= fun a => (k a).mapError g := by
  cases x <;> rfl

/-- A value is no failure, so it stays. -/
theorem mapError_pure {α ε ε' : Type} (g : ε → ε') (a : α) : (pure a : Except ε α).mapError g = pure a := rfl

/-- Over moved things a failure is the moved failure, if it is for each of them. -/
theorem mapM_move {α β : Type} [Movable α] {g' g : α → Except RenderError β} {as : List α}
    (h : ∀ a ∈ as, g' (move f a) = (g a).mapError (move f)) : (move f as).mapM g' = (as.mapM g).mapError (move f) := by
  induction as with
  | nil => rfl
  | cons a as ih =>
    obtain ⟨ha, has⟩ := List.forall_mem_cons.mp h
    show List.mapM g' (move f a :: move f as) = _
    simp only [List.mapM_cons, ha, ih has, mapError_bind, mapError_pure]

/-- The first thing found among moved things is the moved first one, if what is found in each of them is moved. -/
theorem findSome?_move {α β : Type} [Movable α] [Movable β] {g' g : α → Option β} {as : List α}
    (h : ∀ a ∈ as, g' (move f a) = move f (g a)) : (move f as).findSome? g' = move f (as.findSome? g) := by
  induction as with
  | nil => rfl
  | cons a as ih =>
    obtain ⟨ha, has⟩ := List.forall_mem_cons.mp h
    show List.findSome? g' (move f a :: move f as) = _
    rw [List.findSome?_cons, List.findSome?_cons, ha, ih has]
    cases g a <;> rfl

/-! ## Types -/

namespace TypeExpr

mutual

/-- An annotation has the text it had before it was moved. -/
theorem text_move (f : Nat → Nat) (t : TypeExpr) : (move f t).text = t.text := by
  cases t with
  | keyword => rfl
  | named span path args =>
    have hpath : (move f path).map Ident.name = path.map Ident.name := map_move (fun _ => rfl) path
    have hempty : (move f args).isEmpty = args.isEmpty := by cases args <;> rfl
    rw [move_named, text, text, hpath, hempty, texts_move f args]
  | array span elem =>
    show (move f elem).text ++ "[]" = elem.text ++ "[]"
    rw [text_move f elem]
  | union span types => rw [move_union, text, text, texts_move f types]

theorem texts_move (f : Nat → Nat) (ts : List TypeExpr) : texts (move f ts) = texts ts := by
  cases ts with
  | nil => rfl
  | cons t ts =>
    show (move f t).text :: texts (move f ts) = t.text :: texts ts
    rw [text_move f t, texts_move f ts]

end

/-- That a moved annotation stands for no type is reported at the moved place. -/
theorem unknown_move (f : Nat → Nat) (t : TypeExpr) : (move f t).unknown = move f t.unknown := by
  unfold unknown
  rw [text_move, span_move]
  rfl

/-- Whether an annotation is `void` does not depend on its place. -/
theorem isVoid_move (f : Nat → Nat) (t : TypeExpr) : (move f t).isVoid = t.isVoid := by
  cases t with
  | keyword span word => cases word <;> rfl
  | _ => rfl

/-- The type of a moved annotation. -/
theorem solidity_move (t : TypeExpr) : (move f t).solidity = t.solidity.mapError (move f) := by
  have herror : ∀ t : TypeExpr, (.error (move f t).unknown : Except RenderError String) =
      (Except.error t.unknown).mapError (move f) := by
    intro t
    rw [unknown_move]
    rfl
  fun_induction solidity t with
  | case1 | case2 => rfl
  | case3 span name hname | case4 span name hname =>
    show (named (move f span) [⟨name.name, _⟩] []).solidity = _
    rw [hname]
    rfl
  | case5 span name key value hname ihkey ihvalue =>
    rw [mapError_bind, ← ihkey]
    simp only [mapError_bind, mapError_pure, ← ihvalue]
    show (named (move f span) [⟨name.name, _⟩] [move f key, move f value]).solidity = _
    rw [hname]
    rfl
  | case6 span name args hname hargs =>
    rw [← herror, move_named]
    show (named (move f span) [⟨name.name, _⟩] (move f args)).solidity = .error (unknown (named _ [⟨name.name, _⟩] _))
    rw [hname]
    rcases args with _ | ⟨key, _ | ⟨value, _ | _⟩⟩
    · rfl
    · rfl
    · exact (hargs key value rfl).elim
    · rfl
  | case7 span name args hmap hunsigned haddress =>
    rw [move_named]
    have hnone : move f args = [] → args = [] := List.map_eq_nil_iff.mp
    show (named (move f span) [move f name] (move f args)).solidity = .ok name.name
    unfold solidity
    split
    · rename_i hname hargs
      exact (hunsigned hname (hnone hargs)).elim
    · rename_i hname hargs
      exact (haddress hname (hnone hargs)).elim
    · rename_i hname _
      exact (hmap hname).elim
    · rename_i hname _
      exact (hmap hname).elim
    · rfl
  | case8 t hnumber hstring hnamed =>
    rw [← herror]
    cases t with
    | keyword span word =>
      cases word with
      | number => exact (hnumber _ rfl).elim
      | string => exact (hstring _ rfl).elim
      | _ => rfl
    | named span path args =>
      match path, hnamed with
      | [], _ => rfl
      | [name], hnamed => exact (hnamed _ _ _ rfl).elim
      | _ :: _ :: _, _ => rfl
    | _ => rfl

end TypeExpr

/-- The type of a local variable is that of the moved annotation, or its failure is moved. -/
theorem localType_move (t : Option TypeExpr) :
    Writing.localType (move f t) = (Writing.localType t).mapError (move f) := by
  cases t with
  | none => rfl
  | some t => exact t.solidity_move

/-! ## Expressions -/

namespace Expr

/-- Bindings that know the accesses in an expression alike know the expression itself alike. -/
theorem BoundAlike.self {e : Expr} (h : e.BoundAlike f b' b) :
    ∀ span, e.memberSpan? = some span → b'.get? (move f span) = b.get? span :=
  fun span hspan => h span (List.mem_filterMap.mpr ⟨e, mem_subexprs_self e, hspan⟩)

theorem BoundAlike.child {e c : Expr} (h : e.BoundAlike f b' b) (hc : c ∈ e.children) : c.BoundAlike f b' b := by
  intro span hspan
  obtain ⟨x, hx, hxspan⟩ := List.mem_filterMap.mp hspan
  refine h span (List.mem_filterMap.mpr ⟨x, ?_, hxspan⟩)
  rw [subexprs_eq]
  exact List.mem_cons_of_mem _ (List.mem_flatMap_of_mem hc hx)

/-- The kind of an expression does not depend on its place. -/
theorem kindName_move (e : Expr) : (move f e).kindName = e.kindName := by
  cases e <;> rfl

section Access

variable {e : Expr} (h : ∀ span, e.memberSpan? = some span → b'.get? (move f span) = b.get? span)

include h

/-- The same intrinsic is called at the moved place. -/
theorem calledIntrinsic?_move : (move f e).calledIntrinsic? b' = e.calledIntrinsic? b := by
  cases e with
  | member span target name =>
    show (Expr.member (move f span) (move f target) (move f name)).calledIntrinsic? b' = _
    rw [calledIntrinsic?, calledIntrinsic?, h span rfl]
  | _ => rfl

/-- An unknown intrinsic is reported at the moved place. -/
theorem unknownIntrinsic?_move : (move f e).unknownIntrinsic? b' = move f (e.unknownIntrinsic? b) := by
  cases e with
  | member span target name =>
    show (Expr.member (move f span) (move f target) (move f name)).unknownIntrinsic? b' = _
    unfold unknownIntrinsic?
    dsimp only
    rw [h span rfl]
    cases b.get? span with
    | none => rfl
    | some bound =>
      cases bound with
      | known => rfl
      | unknown offered => cases target <;> rfl
  | _ => rfl

end Access

/-- The first unknown access in a moved expression is the moved first one. -/
theorem firstUnknown?_move {e : Expr} (h : e.BoundAlike f b' b) :
    (move f e).firstUnknown? b' = move f (e.firstUnknown? b) := by
  unfold firstUnknown?
  rw [subexprs_move]
  refine findSome?_move fun x hx => unknownIntrinsic?_move fun span hspan => ?_
  exact h span (List.mem_filterMap.mpr ⟨x, hx, hspan⟩)

end Expr

/-- However the runs start, one ends with the moved failure of the other or with the same value. -/
def Tracks {σ α : Type} (f : Nat → Nat) (r' r : EStateM RenderError σ α) : Prop :=
  ∀ s' s, outcome (r' s') = (outcome (r s)).mapError (move f)

namespace Tracks

variable {σ α β : Type}

/-- A value is the same at both places. -/
theorem pure (a : α) : Tracks f (pure a : EStateM RenderError σ α) (pure a) := fun _ _ => rfl

/-- Steps that keep to each other one after the other do so together. -/
theorem bind {r' r : EStateM RenderError σ α} {k' k : α → EStateM RenderError σ β} (hr : Tracks f r' r)
    (hk : ∀ a, Tracks f (k' a) (k a)) : Tracks f (r' >>= k') (r >>= k) := by
  intro s' s
  have hrun := hr s' s
  show outcome (EStateM.bind r' k' s') = (outcome (EStateM.bind r k s)).mapError (move f)
  unfold EStateM.bind
  cases hs' : r' s' <;> cases hs : r s <;> rw [hs', hs] at hrun <;> cases hrun
  · exact hk _ _ _
  · rfl

end Tracks

namespace Rendering

/-- A failure that is moved is raised at the moved place. -/
theorem tracks_failIf (failure : Option RenderError) : Tracks f (failIf (move f failure)) (failIf failure) := by
  intro s' s
  cases failure <;> rfl

/-- A placeholder is written for the same kind of expression. -/
theorem tracks_placeholder (e : Expr) : Tracks f (placeholder (move f e)) (placeholder e) := by
  intro s' s
  show Except.ok ("/* <expression kind=" ++ (move f e).kindName ++ " /> */") = _
  rw [Expr.kindName_move]
  rfl

/-- An operator has no place. -/
theorem tracks_operator (op : BinaryOp) : Tracks f (operator op) (operator op) := by
  intro s' s
  unfold operator
  cases op.solidity? <;> rfl

/-- A literal is written the same wherever it stands. -/
theorem tracks_literal (span : Span) (value : Literal) : Tracks f (literal (move f span) value) (literal span value) := by
  cases value with
  | null | undefined | template => exact tracks_placeholder (.literal span _)
  | _ => exact .pure _

/-- Several moved expressions are written as the expressions are, if each of them is. -/
theorem tracks_exprs {es : List Expr} (h : ∀ e ∈ es, Tracks f (expr b' (move f e)) (expr b e)) :
    Tracks f (exprs b' (move f es)) (exprs b es) := by
  induction es with
  | nil =>
    rw [exprs]
    exact .pure _
  | cons e es ih =>
    obtain ⟨he, hes⟩ := List.forall_mem_cons.mp h
    show Tracks f (exprs b' (move f e :: move f es)) _
    rw [exprs, exprs]
    exact he.bind fun _ => (ih hes).bind fun _ => .pure _

/-- A moved expression has the text of the expression, or its failure, moved. -/
theorem tracks_expr {e : Expr} (h : e.BoundAlike f b' b) : Tracks f (expr b' (move f e)) (expr b e) := by
  have hparts : ∀ c ∈ e.children, Tracks f (expr b' (move f c)) (expr b c) := fun c hc => tracks_expr (h.child hc)
  have hmasked : Tracks f (do failIf ((move f e).firstUnknown? b'); placeholder (move f e))
      (do failIf (e.firstUnknown? b); placeholder e) := by
    rw [Expr.firstUnknown?_move h]
    exact (tracks_failIf _).bind fun _ => tracks_placeholder e
  have hfail : Tracks f (failIf ((move f e).unknownIntrinsic? b')) (failIf (e.unknownIntrinsic? b)) := by
    rw [Expr.unknownIntrinsic?_move h.self]
    exact tracks_failIf _
  cases e with
  | literal span value =>
    rw [expr]
    exact tracks_literal span value
  | ident | this | super =>
    rw [expr]
    exact .pure _
  | member span target name =>
    rw [expr]
    exact hfail.bind fun _ => (hparts target List.mem_cons_self).bind fun _ => .pure _
  | index span target key =>
    have hkey := hparts key (List.mem_cons_of_mem _ List.mem_cons_self)
    rw [expr]
    exact (hparts target List.mem_cons_self).bind fun _ => hkey.bind fun _ => .pure _
  | binary span op left right =>
    have hright := hparts right (List.mem_cons_of_mem _ List.mem_cons_self)
    rw [expr]
    exact (hparts left List.mem_cons_self).bind fun _ => (tracks_operator op).bind fun _ => hright.bind fun _ => .pure _
  | paren span inner =>
    rw [expr]
    exact (hparts inner List.mem_cons_self).bind fun _ => .pure _
  | call span callee args =>
    have hargs := tracks_exprs fun a ha => hparts a (List.mem_cons_of_mem _ ha)
    have hcallee := (h.child (c := callee) List.mem_cons_self).self
    rw [Expr.move_call, expr, expr, Expr.unknownIntrinsic?_move hcallee, Expr.calledIntrinsic?_move hcallee]
    refine (tracks_failIf _).bind fun _ => ?_
    cases callee.calledIntrinsic? b with
    | some intrinsic => exact (Tracks.pure _).bind fun _ => hargs.bind fun _ => .pure _
    | none => exact (hparts callee List.mem_cons_self).bind fun _ => hargs.bind fun _ => .pure _
  | unary | update | conditional | array | object | new | asType | satisfiesType | nonNull | optionalChain =>
    rw [expr]
    exact hmasked
termination_by sizeOf e
decreasing_by exact Expr.sizeOf_lt_of_mem_children hc

end Rendering

/-- The text of a moved expression is that of the expression, or its failure is moved. -/
theorem Expr.solidity_move {e : Expr} (h : e.BoundAlike f b' b) :
    (move f e).solidity b' = (e.solidity b).mapError (move f) :=
  Rendering.tracks_expr h [] []

/-! ## Statements -/

theorem Declarator.solidity_move {d : Declarator} (h : ∀ e ∈ d.init.toList, e.BoundAlike f b' b) :
    (move f d).solidity b' = (d.solidity b).mapError (move f) := by
  obtain ⟨name, type, init, span⟩ := d
  cases init with
  | none => rfl
  | some init =>
    show (do
      let text ← Writing.localType (move f type)
      let value ← (move f init).solidity b'
      return text ++ " " ++ name.name ++ " = " ++ value ++ ";") = _
    rw [localType_move, Expr.solidity_move (h init List.mem_cons_self)]
    simp only [Declarator.solidity, mapError_bind, mapError_pure]

namespace Stmt

/-- The kind of a statement does not depend on its place. -/
theorem kindName_move (s : Stmt) : (move f s).kindName = s.kindName := by
  cases s with
  | forEach span kind binding traversal iterable body => cases traversal <;> rfl
  | _ => rfl

/-- The placeholder of a moved statement is that of the statement, or the unknown access in it is moved. -/
theorem placeholder_move {s : Stmt} (h : ∀ e ∈ s.allExprs, e.BoundAlike f b' b) :
    (move f s).placeholder b' = (s.placeholder b).mapError (move f) := by
  have hunknown : Writing.firstUnknown? b' (move f s) = move f (Writing.firstUnknown? b s) := by
    unfold Writing.firstUnknown?
    rw [allExprs_move]
    exact findSome?_move fun e he => Expr.firstUnknown?_move (h e he)
  unfold placeholder
  rw [hunknown, kindName_move]
  cases Writing.firstUnknown? b s <;> rfl

mutual

/-- The rows of a moved statement are those of the statement, or its failure is moved. -/
theorem rows_move (place : Writing.Place) (depth : Nat) (s : Stmt) (h : ∀ e ∈ s.allExprs, e.BoundAlike f b' b) :
    (move f s).rows b' place depth = (s.rows b place depth).mapError (move f) := by
  have hmasked : (do let text ← (move f s).placeholder b'; return [Row.mk depth text]) =
      (do let text ← s.placeholder b; return [Row.mk depth text] : Except RenderError (List Row)).mapError (move f) := by
    rw [placeholder_move h, mapError_bind]
    rfl
  cases s with
  | return_ span value =>
    cases value with
    | none => rfl
    | some e =>
      show (do let value ← (move f e).solidity b'; return [Row.mk depth ("return " ++ value ++ ";")]) = _
      rw [Expr.solidity_move (h e List.mem_cons_self), rows, mapError_bind]
      rfl
  | expr span e =>
    show (do let text ← (move f e).solidity b'; return [Row.mk depth (text ++ ";")]) = _
    rw [Expr.solidity_move (h e List.mem_cons_self), rows, mapError_bind]
    rfl
  | var span kind decls =>
    have hdecls : ∀ d ∈ decls, (move f d).solidity b' = (d.solidity b).mapError (move f) := by
      intro d hd
      refine Declarator.solidity_move fun e he => h e ?_
      exact List.mem_filterMap.mpr ⟨d, hd, Option.mem_toList.mp he⟩
    show (do let texts ← (move f decls).mapM (Declarator.solidity b'); return texts.map (Row.mk depth)) = _
    rw [mapM_move hdecls, rows, mapError_bind]
    rfl
  | if_ span cond thenBranch elseBranch =>
    obtain ⟨hcond, hbranches⟩ := List.forall_mem_cons.mp h
    obtain ⟨hthen, helse⟩ := List.forall_mem_append.mp hbranches
    rw [move_if, rows, rows, Expr.solidity_move hcond, rows_move .branch (depth + 1) thenBranch hthen,
      elseRows_move depth elseBranch helse]
    simp only [mapError_bind, mapError_pure]
  | while_ span cond body =>
    obtain ⟨hcond, hbody⟩ := List.forall_mem_cons.mp h
    show (do
      let test ← (move f cond).solidity b'
      let inner ← (move f body).rows b' .branch (depth + 1)
      return Row.braced depth ("while (" ++ test ++ ") \x7b") inner) = _
    rw [rows, Expr.solidity_move hcond, rows_move .branch (depth + 1) body hbody]
    simp only [mapError_bind, mapError_pure]
  | block span ss =>
    cases place with
    | branch =>
      rw [move_block, rows, rows]
      exact rowsOf_move depth ss h
    | lastLine =>
      rw [rows]
      exact hmasked
  | doWhile | for_ | forEach | break_ | continue_ | throw | empty =>
    rw [rows]
    exact hmasked

theorem elseRows_move (depth : Nat) (s : Option Stmt) (h : ∀ e ∈ allExprsOption s, e.BoundAlike f b' b) :
    elseRows b' depth (move f s) = (elseRows b depth s).mapError (move f) := by
  cases s with
  | none => rfl
  | some s =>
    show (do
      let inner ← (move f s).rows b' .branch depth
      return Row.braced depth "else \x7b" inner) = _
    rw [elseRows, rows_move .branch depth s h, mapError_bind]
    rfl

theorem rowsOf_move (depth : Nat) (ss : List Stmt) (h : ∀ e ∈ allExprsList ss, e.BoundAlike f b' b) :
    rowsOf b' depth (move f ss) = (rowsOf b depth ss).mapError (move f) := by
  cases ss with
  | nil => rfl
  | cons s ss =>
    obtain ⟨hs, hss⟩ := List.forall_mem_append.mp h
    show (do
      let own ← (move f s).rows b' .lastLine depth
      let others ← rowsOf b' depth (move f ss)
      return own ++ others) = _
    rw [rowsOf, rows_move .lastLine depth s hs, rowsOf_move depth ss hss]
    simp only [mapError_bind, mapError_pure]

end

end Stmt

/-! ## Members and classes -/

/-- The head of a moved callable is that of the callable, or its failure is moved. -/
theorem callableHead_move (name : String) (params : List Param) (returns : Option TypeExpr) :
    callableHead name (move f params) (move f returns) = (callableHead name params returns).mapError (move f) := by
  have hparam : ∀ p ∈ params, (move f p).solidity = p.solidity.mapError (move f) := by
    intro p _
    obtain ⟨name, type, optional, default, modifiers, span⟩ := p
    cases type with
    | none => rfl
    | some type =>
      show (do let text ← (move f type).solidity; return text ++ " " ++ name.name) = _
      rw [type.solidity_move, Param.solidity, mapError_bind]
      rfl
  have hreturns : returnsClause (move f returns) = (returnsClause returns).mapError (move f) := by
    cases returns with
    | none => rfl
    | some type =>
      show (if (move f type).isVoid then Except.ok "" else do
        let text ← (move f type).solidity
        return " returns (" ++ text ++ ")") = _
      rw [type.isVoid_move, type.solidity_move, returnsClause]
      split
      · rfl
      · rw [mapError_bind]
        rfl
  unfold callableHead
  rw [mapM_move hparam, hreturns, mapError_bind]
  refine congrArg _ (funext fun texts => ?_)
  dsimp only
  split
  · rfl
  · rw [mapError_bind]
    rfl

/-- The rows of a moved callable are those of the callable, or their failure is moved. -/
theorem callableRows_move (name : String) (params : List Param) (returns : Option TypeExpr) {body : Option Block}
    (h : ∀ e ∈ body.toList.flatMap Block.exprs, e.BoundAlike f b' b) :
    callableRows b' name (move f params) (move f returns) (move f body) =
      (callableRows b name params returns body).mapError (move f) := by
  have hstmts : (move f body).toList.flatMap Block.stmts = move f (body.toList.flatMap Block.stmts) := by
    rw [toList_move, flatMap_move (g := Block.stmts) fun _ _ => rfl]
  have hexprs : ∀ e ∈ Stmt.allExprsList (body.toList.flatMap Block.stmts), e.BoundAlike f b' b := by
    rw [Stmt.allExprsList_eq_flatMap, List.flatMap_assoc]
    exact h
  unfold callableRows
  rw [callableHead_move, hstmts, Stmt.rowsOf_move 2 _ hexprs]
  simp only [mapError_bind, mapError_pure]

/-- The value of a moved property is that of the property, or its failure is moved. -/
theorem initializer_move {init : Option Expr} (h : ∀ e ∈ init.toList, e.BoundAlike f b' b) :
    initializer b' (move f init) = (initializer b init).mapError (move f) := by
  cases init with
  | none => rfl
  | some e =>
    show (do let value ← (move f e).solidity b'; return " = " ++ value) = _
    rw [Expr.solidity_move (h e List.mem_cons_self), initializer, mapError_bind]
    rfl

/-- The rows of a moved member are those of the member, or their failure is moved. -/
theorem Member.rows_move {m : Member} (h : ∀ e ∈ m.shape.exprs, e.BoundAlike f b' b) :
    (move f m).rows b' = (m.rows b).mapError (move f) := by
  obtain ⟨decorators, modifiers, shape, span⟩ := m
  cases shape with
  | property name type init =>
    cases type with
    | none => rfl
    | some type =>
      show (do
        let typeText ← (move f type).solidity
        let value ← initializer b' (move f init)
        return [Row.mk 1 (typeText ++ " " ++ name.bare ++ value ++ ";")]) = _
      rw [type.solidity_move, initializer_move h]
      simp only [rows, mapError_bind, mapError_pure]
  | constructor params body => exact callableRows_move _ params none (List.forall_mem_append.mp h).2
  | method name params returns body =>
    show (do
      let own ← callableRows b' name.name (move f params) (move f returns) (move f body)
      return own ++ [Row.mk 1 ""]) = _
    rw [callableRows_move _ params returns (List.forall_mem_append.mp h).2, rows, mapError_bind]
    rfl
  | accessor kind => cases kind <;> rfl
  | indexSignature => rfl

/-- A moved class has the rows of the class, or its failure, moved. -/
theorem ClassDecl.rows_move {c : ClassDecl} (h : ∀ m ∈ c.members, ∀ e ∈ m.shape.exprs, e.BoundAlike f b' b) :
    (move f c).rows b' = (c.rows b).mapError (move f) := by
  show (do
    let inner ← (move f c.members).mapM (Member.rows b')
    return Row.braced 0 ("contract " ++ c.name.name ++ " \x7b") inner.flatten) = _
  rw [mapM_move fun m hm => Member.rows_move (h m hm), rows, mapError_bind]
  rfl

end ContractCompiler
