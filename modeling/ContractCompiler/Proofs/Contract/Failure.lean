import ContractCompiler.Contract.Members
import ContractCompiler.Proofs.Contract.Rendered

/-!
# How writing a contract fails

Whether a contract can be written, and with which failure it cannot, depends on the class and the bindings only, and not
on the page. `Fails r failure` says so of one step: it ends with this failure whatever it starts from, or succeeds if there
is none. The failure of an expression is its first unknown access; that of a statement, a member and a class is the first
failure among its parts, in the order in which they are written.
-/

namespace ContractCompiler

/-- The failure a run has ended with. -/
def failureOf {ε σ α : Type} : EStateM.Result ε σ α → Option ε
  | .ok .. => none
  | .error err _ => some err

/-- The failure a result is. -/
def errorOf {ε α : Type} : Except ε α → Option ε
  | .ok _ => none
  | .error err => some err

/-- Every run ends with this failure, or in success if there is none. -/
def Fails {ε σ α : Type} (r : EStateM ε σ α) (failure : Option ε) : Prop := ∀ s, failureOf (r s) = failure

namespace Fails

variable {ε σ α β : Type} {r : EStateM ε σ α} {f g : Option ε}

/-- A value is no failure. -/
theorem pure (a : α) : Fails (pure a : EStateM ε σ α) none := fun _ => rfl

/-- Raising a failure fails with it. -/
theorem throw (err : ε) : Fails (throw err : EStateM ε σ α) (some err) := fun _ => rfl

/-- The failure of two steps is that of the first, or else that of the second. -/
theorem bind {k : α → EStateM ε σ β} (hr : Fails r f) (hk : ∀ a, Fails (k a) g) : Fails (r >>= k) (f.or g) := by
  intro s
  have hrun := hr s
  show failureOf (EStateM.bind r k s) = f.or g
  unfold EStateM.bind
  cases h : r s with
  | ok a s' =>
    rw [h] at hrun
    rw [← hrun]
    exact hk a s'
  | error err s' =>
    rw [h] at hrun
    rw [← hrun]
    rfl

/-- A step that cannot fail leaves the failure to what comes after it. -/
theorem after {k : α → EStateM ε σ β} (hr : Fails r none) (hk : ∀ a, Fails (k a) g) : Fails (r >>= k) g := hr.bind hk

/-- What comes after a step and cannot fail leaves the failure to it. -/
theorem before {k : α → EStateM ε σ β} (hr : Fails r f) (hk : ∀ a, Fails (k a) none) : Fails (r >>= k) f := by
  rw [← Option.or_none (o := f)]
  exact hr.bind hk

end Fails

/-- A type is refused for itself, or for an argument that is refused. -/
theorem TypeExpr.solidity_eq_error {t : TypeExpr} {err : RenderError} (h : t.solidity = .error err) :
    err = t.unknown ∨ ∃ span path args, t = .named span path args ∧ ∃ arg ∈ args, arg.solidity = .error err := by
  fun_induction solidity t with
  | case1 | case2 | case3 | case4 | case7 => cases h
  | case5 span name key value hname =>
    refine .inr ⟨span, [name], [key, value], rfl, ?_⟩
    cases hkey : key.solidity with
    | error err₁ =>
      rw [hkey] at h
      cases h
      exact ⟨key, by simp, hkey⟩
    | ok k =>
      cases hvalue : value.solidity with
      | error err₁ =>
        rw [hkey, hvalue] at h
        cases h
        exact ⟨value, by simp, hvalue⟩
      | ok v =>
        rw [hkey, hvalue] at h
        cases h
  | case6 | case8 =>
    cases h
    exact .inl rfl

/-! ## Expressions -/

namespace Rendering

variable {b : Bindings}

/-- A check fails with what it is given. -/
theorem fails_failIf (f : Option RenderError) : Fails (failIf f) f := by
  intro journal
  cases f <;> rfl

/-- A placeholder does not fail. -/
theorem fails_placeholder (e : Expr) : Fails (placeholder e) none := fun _ => rfl

/-- An operator does not fail. -/
theorem fails_operator (op : BinaryOp) : Fails (operator op) none := by
  intro journal
  unfold operator
  cases op.solidity? <;> rfl

/-- A literal does not fail. -/
theorem fails_literal (span : Span) (value : Literal) : Fails (literal span value) none := by
  cases value with
  | null | undefined | template => exact fails_placeholder _
  | _ => exact .pure _

/-- On a page an expression fails as it does by itself. -/
theorem fails_onPage {α : Type} {r : Rendering α} {f : Option RenderError} (h : Fails r f) : Fails r.onPage f := by
  intro page
  rw [← h page.notes]
  unfold onPage
  cases r page.notes <;> rfl

end Rendering

namespace Expr

/-- Every access in the expression that is bound is on a name. -/
def OnNames (b : Bindings) (e : Expr) : Prop :=
  ∀ span target name, .member span target name ∈ e.subexprs → b.get? span ≠ none → ∃ object, target = .ident object

variable {b : Bindings}

/-- If the bound accesses in an expression are on names, so are those in what stands in it. -/
theorem OnNames.child {e c : Expr} (h : e.OnNames b) (hc : c ∈ e.children) : c.OnNames b := by
  intro span target name hmem
  refine h span target name ?_
  rw [subexprs_eq]
  exact List.mem_cons_of_mem _ (List.mem_flatMap.mpr ⟨c, hc, hmem⟩)

/-- There is no unknown access in what is called as an intrinsic. -/
theorem OnNames.firstUnknown?_of_called {callee : Expr} (h : callee.OnNames b) {intrinsic : Intrinsic}
    (hcalled : callee.calledIntrinsic? b = some intrinsic) : callee.firstUnknown? b = none := by
  cases callee with
  | member span target name =>
    cases hget : b.get? span with
    | none => simp [calledIntrinsic?, hget] at hcalled
    | some bound =>
      obtain ⟨object, rfl⟩ := h span target name (mem_subexprs_self _) (by simp [hget])
      cases bound with
      | known => simp [firstUnknown?, subexprs, unknownIntrinsic?, hget]
      | unknown => simp [calledIntrinsic?, hget] at hcalled
  | _ => cases hcalled

/-- Several expressions fail with the first unknown access in them. -/
theorem fails_exprs {es : List Expr} (h : ∀ e ∈ es, Fails (Rendering.expr b e) (e.firstUnknown? b)) :
    Fails (Rendering.exprs b es) (es.findSome? (firstUnknown? b)) := by
  induction es with
  | nil =>
    rw [Rendering.exprs]
    exact .pure _
  | cons e es ih =>
    obtain ⟨he, hes⟩ := List.forall_mem_cons.mp h
    rw [Rendering.exprs, findSome?_cons_eq_or]
    exact he.bind fun _ => (ih hes).before fun _ => .pure _

/-- Writing an expression fails with the first unknown access in it. -/
theorem OnNames.fails_expr {e : Expr} (h : e.OnNames b) : Fails (Rendering.expr b e) (e.firstUnknown? b) := by
  have hparts : ∀ c ∈ e.children, Fails (Rendering.expr b c) (c.firstUnknown? b) := fun c hc => (h.child hc).fails_expr
  have hhead : ∀ {c cs}, e.children = c :: cs → Fails (Rendering.expr b c) (c.firstUnknown? b) := by
    intro c cs hcs
    exact hparts c (hcs ▸ List.mem_cons_self)
  have hmasked : Fails (do Rendering.failIf (e.firstUnknown? b); Rendering.placeholder e) (e.firstUnknown? b) :=
    (Rendering.fails_failIf _).before fun _ => Rendering.fails_placeholder e
  cases e with
  | literal span value =>
    rw [firstUnknown?_eq, Rendering.expr]
    exact Rendering.fails_literal span value
  | ident | this | super =>
    rw [firstUnknown?_eq, Rendering.expr]
    exact .pure _
  | member span target name =>
    rw [firstUnknown?_eq, Rendering.expr, children, findSome?_cons_eq_or, List.findSome?_nil, Option.or_none]
    exact (Rendering.fails_failIf _).bind fun _ => (hhead rfl).before fun _ => .pure _
  | index span target key =>
    have hkey := hparts key (List.mem_cons_of_mem _ List.mem_cons_self)
    rw [firstUnknown?_eq, Rendering.expr, children, findSome?_cons_eq_or, findSome?_cons_eq_or, List.findSome?_nil,
      Option.or_none]
    exact (hhead rfl).bind fun _ => hkey.before fun _ => .pure _
  | binary span op left right =>
    have hright := hparts right (List.mem_cons_of_mem _ List.mem_cons_self)
    rw [firstUnknown?_eq, Rendering.expr, children, findSome?_cons_eq_or, findSome?_cons_eq_or, List.findSome?_nil,
      Option.or_none]
    exact (hhead rfl).bind fun _ => (Rendering.fails_operator op).after fun _ => hright.before fun _ => .pure _
  | paren span inner =>
    rw [firstUnknown?_eq, Rendering.expr, children, findSome?_cons_eq_or, List.findSome?_nil, Option.or_none]
    exact (hhead rfl).before fun _ => .pure _
  | call span callee args =>
    have hargs := fails_exprs fun a ha => hparts a (List.mem_cons_of_mem _ ha)
    rw [firstUnknown?_call, Rendering.expr]
    refine (Rendering.fails_failIf _).bind fun _ => ?_
    cases hcalled : callee.calledIntrinsic? b with
    | some intrinsic =>
      rw [(h.child List.mem_cons_self).firstUnknown?_of_called hcalled]
      exact (Fails.pure _).after fun _ => hargs.before fun _ => .pure _
    | none => exact (hhead rfl).bind fun _ => hargs.before fun _ => .pure _
  | unary | update | conditional | array | object | new | asType | satisfiesType | nonNull | optionalChain =>
    rw [Rendering.expr]
    exact hmasked
termination_by sizeOf e
decreasing_by exact sizeOf_lt_of_mem_children hc

/-- The expression is an access that is bound to something unknown. -/
def IsUnknown (b : Bindings) : Expr → Prop
  | .member span _ _ => ∃ offered, b.get? span = some (.unknown offered)
  | _ => False

/-- An expression has no unknown intrinsic just if it is no unknown access. -/
theorem unknownIntrinsic?_eq_none_iff {e : Expr} : e.unknownIntrinsic? b = none ↔ ¬ e.IsUnknown b := by
  cases e with
  | member span target name =>
    cases hget : b.get? span with
    | none => simp [unknownIntrinsic?, IsUnknown, hget]
    | some bound => cases bound <;> simp [unknownIntrinsic?, IsUnknown, hget]
  | _ => simp [unknownIntrinsic?, IsUnknown]

/-- There is no failure exactly if no access in the expression is bound to something unknown. -/
theorem firstUnknown?_eq_none_iff {e : Expr} : e.firstUnknown? b = none ↔
    ∀ span target name offered, .member span target name ∈ e.subexprs → b.get? span ≠ some (.unknown offered) := by
  rw [firstUnknown?, List.findSome?_eq_none_iff]
  constructor
  · intro h span target name offered hmem hget
    exact unknownIntrinsic?_eq_none_iff.mp (h _ hmem) ⟨offered, hget⟩
  · intro h x hx
    refine unknownIntrinsic?_eq_none_iff.mpr fun hunknown => ?_
    cases x with
    | member span target name =>
      obtain ⟨offered, hget⟩ := hunknown
      exact h span target name offered hx hget
    | _ => exact hunknown

end Expr

/-! ## Statements -/

/-- The failure of declaring a variable: a missing initializer, a type that cannot be written, or an unknown access. -/
def Declarator.failure? (b : Bindings) (d : Declarator) : Option RenderError :=
  match d.init with
  | none => some (.missingInit d.name.name d.span)
  | some init => (errorOf (Writing.localType d.type)).or (init.firstUnknown? b)

namespace Stmt

mutual

/-- The failure of writing a statement. Inside a placeholder only unknown accesses count. -/
def failure? (b : Bindings) (place : Writing.Place) (s : Stmt) : Option RenderError :=
  match s with
  | .return_ _ value => value.bind (Expr.firstUnknown? b)
  | .if_ _ cond thenBranch elseBranch =>
    (cond.firstUnknown? b).or ((failure? b .branch thenBranch).or (elseFailure? b elseBranch))
  | .var _ _ decls => decls.findSome? (Declarator.failure? b)
  | .expr _ e => e.firstUnknown? b
  | .while_ _ cond body => (cond.firstUnknown? b).or (failure? b .branch body)
  | .block _ ss =>
    match place with
    | .branch => failures? b ss
    | .lastLine => Writing.firstUnknown? b s
  | .doWhile .. | .for_ .. | .forEach .. | .break_ _ | .continue_ _ | .throw .. | .empty _ => Writing.firstUnknown? b s

/-- The failure of writing an `else`. -/
def elseFailure? (b : Bindings) : Option Stmt → Option RenderError
  | none => none
  | some s => failure? b .branch s

/-- The first failure of writing statements one after the other. -/
def failures? (b : Bindings) : List Stmt → Option RenderError
  | [] => none
  | s :: ss => (failure? b .lastLine s).or (failures? b ss)

end

end Stmt

namespace Writing

variable {b : Bindings}

/-- A line is written without a failure. -/
theorem fails_line (text : String) : Fails (line text : Writing RenderError Unit) none := fun _ => rfl

theorem fails_push (text : String) : Fails (push text : Writing RenderError Unit) none := fun _ => rfl

theorem fails_note (event : Event) : Fails (note event : Writing RenderError Unit) none := fun _ => rfl

theorem fails_start (place : Place) : Fails place.start none := by
  cases place with
  | lastLine => exact .pure ()
  | branch => exact fails_line ""

/-- What was found before is found again, or fails as it did. -/
theorem fails_ofExcept {α : Type} (r : Except RenderError α) : Fails (ofExcept r) (errorOf r) := by
  intro page
  cases r <;> rfl

/-- More indentation makes no difference to failures. -/
theorem fails_indented {α : Type} {w : Writing RenderError α} {f : Option RenderError} (h : Fails w f) :
    Fails (indented w) f := by
  intro page
  rw [← h { page with depth := page.depth + 1 }]
  unfold indented
  cases w { page with depth := page.depth + 1 } <;> rfl

/-- An expression on the page fails with the first unknown access in it. -/
theorem fails_pushExpr {e : Expr} (h : e.OnNames b) : Fails (pushExpr b e) (e.firstUnknown? b) :=
  (Rendering.fails_onPage h.fails_expr).before fun text => fails_push text

/-- A variable fails as `Declarator.failure?` says. -/
theorem fails_declarator {d : Declarator} (h : ∀ e ∈ d.init, e.OnNames b) :
    Fails (declarator b d) (d.failure? b) := by
  unfold declarator Declarator.failure?
  cases hinit : d.init with
  | none => exact .throw _
  | some init =>
    refine (fails_ofExcept _).bind fun type => (fails_push _).after fun _ => ?_
    exact (fails_pushExpr (h init hinit)).before fun _ => fails_push _

/-- The variables after the first one fail with the first failure among them. -/
theorem fails_moreDeclarators {ds : List Declarator} (h : ∀ d ∈ ds, ∀ e ∈ d.init, e.OnNames b) :
    Fails (moreDeclarators b ds) (ds.findSome? (Declarator.failure? b)) := by
  induction ds with
  | nil => exact .pure ()
  | cons d ds ih =>
    obtain ⟨hd, hds⟩ := List.forall_mem_cons.mp h
    rw [moreDeclarators, findSome?_cons_eq_or]
    exact (fails_line "").after fun _ => (fails_declarator hd).bind fun _ => ih hds

theorem fails_declarators {ds : List Declarator} (h : ∀ d ∈ ds, ∀ e ∈ d.init, e.OnNames b) :
    Fails (declarators b ds) (ds.findSome? (Declarator.failure? b)) := by
  cases ds with
  | nil => exact .pure ()
  | cons d ds =>
    obtain ⟨hd, hds⟩ := List.forall_mem_cons.mp h
    rw [declarators, findSome?_cons_eq_or]
    exact (fails_declarator hd).bind fun _ => fails_moreDeclarators hds

/-- A placeholder fails with the first unknown access below it. -/
theorem fails_stmtPlaceholder (s : Stmt) : Fails (stmtPlaceholder b s) (firstUnknown? b s) := by
  unfold stmtPlaceholder
  cases firstUnknown? b s with
  | none => exact (fails_note _).after fun _ => fails_push _
  | some err => exact .throw err

mutual

/-- Writing a statement fails with its failure. -/
theorem fails_stmtAt (place : Place) (s : Stmt) (h : ∀ e ∈ s.allExprs, e.OnNames b) :
    Fails (stmtAt b place s) (s.failure? b place) := by
  cases s with
  | return_ span value =>
    rw [stmtAt, Stmt.failure?]
    refine (fails_start place).after fun _ => (fails_push _).after fun _ => ?_
    cases value with
    | none => exact (Fails.pure ()).after fun _ => fails_push _
    | some e =>
      have hvalue : Fails (do push " "; pushExpr b e) (e.firstUnknown? b) :=
        (fails_push " ").after fun _ => fails_pushExpr (h e (by simp [Stmt.allExprs]))
      exact hvalue.before fun _ => fails_push _
  | if_ span cond thenBranch elseBranch =>
    simp only [Stmt.allExprs, List.forall_mem_cons, List.forall_mem_append] at h
    rw [stmtAt, Stmt.failure?]
    refine (fails_start place).after fun _ => (fails_push _).after fun _ => (fails_pushExpr h.1).bind fun _ => ?_
    refine (fails_push _).after fun _ => (fails_indented (fails_stmtAt .branch thenBranch h.2.1)).bind fun _ => ?_
    exact (fails_line _).after fun _ => fails_elseAt elseBranch h.2.2
  | var span kind decls =>
    rw [stmtAt, Stmt.failure?]
    refine (fails_start place).after fun _ => fails_declarators fun d hd e he => h e ?_
    exact List.mem_filterMap.mpr ⟨d, hd, he⟩
  | expr span e =>
    rw [stmtAt, Stmt.failure?]
    refine (fails_start place).after fun _ => (fails_pushExpr (h e ?_)).before fun _ => fails_push _
    simp [Stmt.allExprs]
  | while_ span cond body =>
    simp only [Stmt.allExprs, List.forall_mem_cons] at h
    rw [stmtAt, Stmt.failure?]
    refine (fails_start place).after fun _ => (fails_push _).after fun _ => (fails_pushExpr h.1).bind fun _ => ?_
    refine (fails_push _).after fun _ => (fails_indented (fails_stmtAt .branch body h.2)).before fun _ => ?_
    exact fails_line _
  | block span ss =>
    cases place with
    | branch =>
      rw [stmtAt, Stmt.failure?]
      exact fails_stmts ss h
    | lastLine =>
      rw [stmtAt, Stmt.failure?]
      exact fails_stmtPlaceholder _
  | doWhile | for_ | forEach | break_ | continue_ | throw | empty =>
    rw [stmtAt, Stmt.failure?]
    exact (fails_start place).after fun _ => fails_stmtPlaceholder _

/-- An `else` fails as `Stmt.elseFailure?` says. -/
theorem fails_elseAt (branch : Option Stmt) (h : ∀ e ∈ Stmt.allExprsOption branch, e.OnNames b) :
    Fails (elseAt b branch) (Stmt.elseFailure? b branch) := by
  cases branch with
  | none => exact .pure ()
  | some s =>
    rw [elseAt, Stmt.elseFailure?]
    exact (fails_line _).after fun _ => (fails_stmtAt .branch s h).before fun _ => fails_line _

/-- Statements one after the other fail with their first failure. -/
theorem fails_stmts (ss : List Stmt) (h : ∀ e ∈ Stmt.allExprsList ss, e.OnNames b) :
    Fails (stmts b ss) (Stmt.failures? b ss) := by
  cases ss with
  | nil => exact .pure ()
  | cons s ss =>
    simp only [Stmt.allExprsList, List.forall_mem_append] at h
    rw [stmts, Stmt.failures?]
    exact (fails_line _).after fun _ => (fails_stmtAt .lastLine s h.1).bind fun _ => fails_stmts ss h.2

end

end Writing

/-! ## Members and classes -/

/-- The expressions a member holds that are looked at when it is written: its initializer, or what stands in its body. The
defaults of parameters, and all of an accessor, are not. -/
def MemberShape.checked : MemberShape → List Expr
  | .property _ _ init => init.toList
  | .constructor _ body | .method _ _ _ body => body.toList.flatMap Block.exprs
  | .accessor .. | .indexSignature .. => []

/-- The failure of writing a callable: that of its first line, or the first one in its body. -/
def callableFailure? (b : Bindings) (name : String) (params : List Param) (returns : Option TypeExpr)
    (body : Option Block) : Option RenderError :=
  (errorOf (signature name params returns)).or (body.bind fun block => Stmt.failures? b block.stmts)

/-- The failure of writing a member. -/
def Member.failure? (b : Bindings) (m : Member) : Option RenderError :=
  match m.shape with
  | .property name none _ => some (.missingType name.name m.span)
  | .property _ (some type) init => (errorOf type.solidity).or (init.bind (Expr.firstUnknown? b))
  | .constructor params body => callableFailure? b constructorName params none body
  | .method name params returns body => callableFailure? b name.name params returns body
  | .accessor .. | .indexSignature .. => none

/-- The failure of writing a class: the first one of its members. -/
def ClassDecl.failure? (b : Bindings) (c : ClassDecl) : Option RenderError := c.members.findSome? (Member.failure? b)

namespace Writing

variable {b : Bindings}

/-- A callable fails with its first line, or in its body. -/
theorem fails_callable (name : String) (params : List Param) (returns : Option TypeExpr) {body : Option Block}
    (h : ∀ e ∈ body.toList.flatMap Block.exprs, e.OnNames b) :
    Fails (callable b name params returns body) (callableFailure? b name params returns body) := by
  unfold callable callableFailure?
  refine (fails_ofExcept _).bind fun text => (fails_line text).after fun _ => ?_
  cases body with
  | none => exact (Fails.pure ()).after fun _ => fails_line _
  | some block =>
    have hstmts : ∀ e ∈ Stmt.allExprsList block.stmts, e.OnNames b := by
      rw [Stmt.allExprsList_eq_flatMap]
      simpa [Block.exprs] using h
    exact (fails_indented (fails_stmts block.stmts hstmts)).before fun _ => fails_line _

/-- A property fails with its type, or with the first unknown access in its value. -/
theorem fails_property (span : Span) (name : Ident) (type : TypeExpr) {init : Option Expr}
    (h : ∀ e ∈ init.toList, e.OnNames b) :
    Fails (property b span name (some type) init) ((errorOf type.solidity).or (init.bind (Expr.firstUnknown? b))) := by
  unfold property
  refine (fails_ofExcept _).bind fun text => ?_
  cases init with
  | none => exact (Fails.pure "").after fun _ => fails_line _
  | some e =>
    refine (Rendering.fails_onPage (h e (by simp)).fails_expr).before fun _ => ?_
    exact (Fails.pure _).after fun _ => fails_line _

/-- A member fails as `Member.failure?` says. -/
theorem fails_member {m : Member} (h : ∀ e ∈ m.shape.checked, e.OnNames b) : Fails (member b m) (m.failure? b) := by
  unfold member Member.failure?
  cases hshape : m.shape with
  | property name type init =>
    rw [hshape] at h
    cases type with
    | none => exact .throw _
    | some type => exact fails_property m.span name type h
  | constructor params body =>
    rw [hshape] at h
    exact fails_callable _ _ _ h
  | method name params returns body =>
    rw [hshape] at h
    exact (fails_callable _ _ _ h).before fun _ => fails_line _
  | accessor | indexSignature => exact (fails_note _).after fun _ => fails_line _

/-- Members one after the other fail with their first failure. -/
theorem fails_members {ms : List Member} (h : ∀ m ∈ ms, ∀ e ∈ m.shape.checked, e.OnNames b) :
    Fails (members b ms) (ms.findSome? (Member.failure? b)) := by
  induction ms with
  | nil => exact .pure ()
  | cons m ms ih =>
    obtain ⟨hm, hms⟩ := List.forall_mem_cons.mp h
    rw [members, findSome?_cons_eq_or]
    exact (fails_member hm).bind fun _ => ih hms

/-- A class fails with the first failure of its members. -/
theorem fails_contract {c : ClassDecl} (h : ∀ m ∈ c.members, ∀ e ∈ m.shape.checked, e.OnNames b) :
    Fails (contract b c) (c.failure? b) :=
  (fails_note _).after fun _ => (fails_line _).after fun _ => (fails_indented (fails_members h)).before fun _ => fails_line _

end Writing

/-- A class is refused with its failure, on every page. -/
theorem ClassDecl.errorOf_render {b : Bindings} {c : ClassDecl} (indent : String)
    (h : ∀ m ∈ c.members, ∀ e ∈ m.shape.checked, e.OnNames b) : errorOf (c.render indent b) = c.failure? b := by
  rw [← Writing.fails_contract h (Page.blank indent)]
  unfold ClassDecl.render
  cases Writing.contract b c (Page.blank indent) <;> rfl

/-! ## Without a failure -/

namespace Stmt

variable {b : Bindings}

/-- Where no unknown access is found below a statement there is none in any of its expressions. -/
theorem firstUnknown?_of_none {s : Stmt} (h : Writing.firstUnknown? b s = none) :
    ∀ e ∈ s.allExprs, e.firstUnknown? b = none := List.findSome?_eq_none_iff.mp h

mutual

/-- A statement that can be written has no unknown access, in a placeholder or elsewhere. -/
theorem firstUnknown?_of_failure? (place : Writing.Place) (s : Stmt) (h : s.failure? b place = none) :
    ∀ e ∈ s.allExprs, e.firstUnknown? b = none := by
  cases s with
  | return_ span value =>
    rw [failure?] at h
    intro e he
    cases value with
    | none => cases he
    | some value =>
      cases List.mem_singleton.mp he
      exact h
  | if_ span cond thenBranch elseBranch =>
    rw [failure?, Option.or_eq_none_iff, Option.or_eq_none_iff] at h
    rw [allExprs, List.forall_mem_cons, List.forall_mem_append]
    exact ⟨h.1, firstUnknown?_of_failure? .branch thenBranch h.2.1, firstUnknown?_of_elseFailure? elseBranch h.2.2⟩
  | var span kind decls =>
    rw [failure?, List.findSome?_eq_none_iff] at h
    intro e he
    obtain ⟨d, hd, hinit⟩ := List.mem_filterMap.mp he
    have hdecl := h d hd
    rw [Declarator.failure?, hinit, Option.or_eq_none_iff] at hdecl
    exact hdecl.2
  | expr span e =>
    rw [failure?] at h
    exact List.forall_mem_singleton.mpr h
  | while_ span cond body =>
    rw [failure?, Option.or_eq_none_iff] at h
    rw [allExprs, List.forall_mem_cons]
    exact ⟨h.1, firstUnknown?_of_failure? .branch body h.2⟩
  | block span ss =>
    cases place with
    | branch =>
      rw [failure?] at h
      exact firstUnknown?_of_failures? ss h
    | lastLine =>
      rw [failure?] at h
      exact firstUnknown?_of_none h
  | doWhile | for_ | forEach | break_ | continue_ | throw | empty =>
    rw [failure?] at h
    exact firstUnknown?_of_none h

/-- An `else` that does not fail has no unknown access in it. -/
theorem firstUnknown?_of_elseFailure? (branch : Option Stmt) (h : elseFailure? b branch = none) :
    ∀ e ∈ allExprsOption branch, e.firstUnknown? b = none := by
  cases branch with
  | none => exact nofun
  | some s => exact firstUnknown?_of_failure? .branch s h

theorem firstUnknown?_of_failures? (ss : List Stmt) (h : failures? b ss = none) :
    ∀ e ∈ allExprsList ss, e.firstUnknown? b = none := by
  cases ss with
  | nil => exact nofun
  | cons s ss =>
    rw [failures?, Option.or_eq_none_iff] at h
    rw [allExprsList, List.forall_mem_append]
    exact ⟨firstUnknown?_of_failure? .lastLine s h.1, firstUnknown?_of_failures? ss h.2⟩

end

end Stmt

/-- A callable that can be written has no unknown access in its body. -/
theorem firstUnknown?_of_callableFailure? {b : Bindings} {name : String} {params : List Param}
    {returns : Option TypeExpr} {body : Option Block} (h : callableFailure? b name params returns body = none) :
    ∀ e ∈ body.toList.flatMap Block.exprs, e.firstUnknown? b = none := by
  rw [callableFailure?, Option.or_eq_none_iff] at h
  intro e he
  obtain ⟨block, hblock, he⟩ := List.mem_flatMap.mp he
  rw [Option.mem_toList] at hblock
  have hstmts : Stmt.failures? b block.stmts = none := by
    have hbody := h.2
    rwa [hblock, Option.bind_some] at hbody
  refine Stmt.firstUnknown?_of_failures? block.stmts hstmts e ?_
  rwa [Stmt.allExprsList_eq_flatMap]

/-- A member that can be written has no unknown access in what is looked at. -/
theorem Member.firstUnknown?_of_failure? {b : Bindings} {m : Member} (h : m.failure? b = none) :
    ∀ e ∈ m.shape.checked, e.firstUnknown? b = none := by
  unfold failure? at h
  cases hshape : m.shape with
  | property name type init =>
    rw [hshape] at h
    cases type with
    | none => cases h
    | some type =>
      intro e he
      rw [MemberShape.checked, Option.mem_toList] at he
      have hinit := (Option.or_eq_none_iff.mp h).2
      rwa [he] at hinit
  | constructor | method =>
    rw [hshape] at h
    exact firstUnknown?_of_callableFailure? h
  | accessor | indexSignature => exact List.forall_mem_nil _

end ContractCompiler
