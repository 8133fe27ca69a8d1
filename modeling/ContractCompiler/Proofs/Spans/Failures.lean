import ContractCompiler.Proofs.Contract.Renderable
import ContractCompiler.Proofs.Spans.SpanTree

/-!
# Where writing a contract fails

A class that cannot be written is refused at the span of something that stands in it, whatever the bindings.
-/

namespace ContractCompiler

/-- Wherever the run fails, `place` holds of the span of the failure. -/
def FailsAt {σ α : Type} (place : Span → Prop) (r : EStateM RenderError σ α) : Prop :=
  ∀ s err s', r s = .error err s' → place err.span

namespace FailsAt

variable {σ α β : Type} {place : Span → Prop} {r : EStateM RenderError σ α}

/-- A run whose failure is known fails where that lies. -/
theorem of_fails {f : Option RenderError} (h : Fails r f) (hf : ∀ err ∈ f, place err.span) : FailsAt place r := by
  intro s err s' hr
  have hrun := h s
  rw [hr] at hrun
  exact hf err hrun.symm

/-- A run that cannot fail. -/
theorem never (h : Fails r none) : FailsAt place r := of_fails h (by simp)

/-- Steps that fail at some places one after the other fail at them together. -/
theorem bind {k : α → EStateM RenderError σ β} (hr : FailsAt place r) (hk : ∀ a, FailsAt place (k a)) :
    FailsAt place (r >>= k) := by
  intro s err s' h
  change EStateM.bind r k s = _ at h
  unfold EStateM.bind at h
  cases hrun : r s with
  | ok a s₁ =>
    rw [hrun] at h
    exact hk a s₁ err s' h
  | error err₁ s₁ =>
    rw [hrun] at h
    cases h
    exact hr s err s' hrun

end FailsAt

/-! ## Types and expressions -/

/-- A type without a counterpart is found at its own span, or at that of an argument. -/
theorem TypeExpr.shows_of_solidity (t : TypeExpr) {err : RenderError} (h : t.solidity = .error err) :
    t.tree.Shows err.span := by
  rcases solidity_eq_error h with rfl | ⟨span, path, args, ht, arg, harg, herr⟩
  · cases t <;> exact .root
  · have hlt : sizeOf arg < sizeOf t := by
      have hargs := List.sizeOf_lt_of_mem harg
      rw [ht, named.sizeOf_spec]
      omega
    have hshows := arg.shows_of_solidity herr
    rw [ht]
    exact .part (p := arg.tree) (by simp [trees_eq_map, List.mem_map_of_mem harg]) hshows
termination_by sizeOf t

namespace Expr

variable {b : Bindings}

/-- What a part of an expression shows the expression shows. -/
theorem shows_of_mem_children {e c : Expr} {span : Span} (hc : c ∈ e.children) (h : c.tree.Shows span) :
    e.tree.Shows span := by
  cases e with
  | literal | ident | this | super => cases hc
  | object _ fields =>
    obtain ⟨f, hf, rfl⟩ := List.mem_map.mp hc
    have hpart : f.value.tree ∈ f.trees := by
      unfold Field.trees
      split
      · rename_i hname
        rw [isIdent_eq_true_iff.mp hname]
        exact List.mem_cons_self
      · simp
    refine .part ?_ h
    rw [fieldTrees_eq_flatMap]
    exact List.mem_flatMap.mpr ⟨f, hf, hpart⟩
  | call _ callee args | new _ callee args =>
    refine .part ?_ h
    rw [trees_eq_map, ← List.map_cons]
    exact List.mem_map_of_mem hc
  | array _ elements =>
    refine .part ?_ h
    rw [trees_eq_map]
    exact List.mem_map_of_mem hc
  | member | index | binary | unary | update | conditional | paren | asType | satisfiesType | nonNull | optionalChain =>
    refine .part ?_ h
    simp only [children, List.mem_cons, List.not_mem_nil, or_false] at hc
    simp only [List.mem_cons, List.not_mem_nil, or_false]
    grind

theorem shows_of_mem_subexprs {e x : Expr} {span : Span} (hx : x ∈ e.subexprs) (h : x.tree.Shows span) :
    e.tree.Shows span := by
  rw [subexprs_eq] at hx
  rcases List.mem_cons.mp hx with rfl | hx
  · exact h
  · obtain ⟨c, hc, hx⟩ := List.mem_flatMap.mp hx
    exact shows_of_mem_children hc (shows_of_mem_subexprs hx h)
termination_by sizeOf e
decreasing_by exact sizeOf_lt_of_mem_children hc

/-- An unknown access is found at the name after the dot. -/
theorem shows_of_unknownIntrinsic? {e : Expr} {err : RenderError} (h : e.unknownIntrinsic? b = some err) :
    e.tree.Shows err.span := by
  cases e with
  | member span target name =>
    simp only [unknownIntrinsic?] at h
    split at h
    · cases h
      exact .part (p := name.tree) (by simp) .root
    · cases h
  | _ => cases h

/-- The first unknown access in an expression is shown by it. -/
theorem shows_of_firstUnknown? {e : Expr} {err : RenderError} (h : e.firstUnknown? b = some err) :
    e.tree.Shows err.span := by
  obtain ⟨x, hx, hunknown⟩ := List.exists_of_findSome?_eq_some h
  exact shows_of_mem_subexprs hx (shows_of_unknownIntrinsic? hunknown)

variable {place : Span → Prop}

/-- Several expressions fail where each of them does. -/
theorem failsAt_exprs {es : List Expr} (h : ∀ e ∈ es, FailsAt place (Rendering.expr b e)) :
    FailsAt place (Rendering.exprs b es) := by
  induction es with
  | nil => exact .never (.pure _)
  | cons e es ih =>
    obtain ⟨he, hes⟩ := List.forall_mem_cons.mp h
    rw [Rendering.exprs]
    exact he.bind fun _ => (ih hes).bind fun _ => .never (.pure _)

/-- Writing an expression fails at something that stands in it. -/
theorem failsAt_expr (e : Expr) (h : ∀ span, e.tree.Shows span → place span) : FailsAt place (Rendering.expr b e) := by
  have hparts : ∀ c ∈ e.children, FailsAt place (Rendering.expr b c) :=
    fun c hc => c.failsAt_expr fun span hspan => h span (shows_of_mem_children hc hspan)
  have hhead : ∀ {c cs}, e.children = c :: cs → FailsAt place (Rendering.expr b c) := by
    intro c cs hcs
    exact hparts c (hcs ▸ List.mem_cons_self)
  have hunknown : ∀ x ∈ e.subexprs, FailsAt place (Rendering.failIf (x.unknownIntrinsic? b)) := by
    refine fun x hx => .of_fails (Rendering.fails_failIf _) fun err herr => h _ ?_
    exact shows_of_mem_subexprs hx (shows_of_unknownIntrinsic? herr)
  have hmasked : FailsAt place (do Rendering.failIf (e.firstUnknown? b); Rendering.placeholder e) :=
    .bind (.of_fails (Rendering.fails_failIf _) fun err herr => h _ (shows_of_firstUnknown? herr)) fun _ =>
      .never (Rendering.fails_placeholder e)
  cases e with
  | literal span value =>
    rw [Rendering.expr]
    exact .never (Rendering.fails_literal span value)
  | ident | this | super =>
    rw [Rendering.expr]
    exact .never (.pure _)
  | member span target name =>
    rw [Rendering.expr]
    exact (hunknown _ (mem_subexprs_self _)).bind fun _ => (hhead rfl).bind fun _ => .never (.pure _)
  | index span target key =>
    rw [Rendering.expr]
    exact (hhead rfl).bind fun _ => (hparts key (by simp [children])).bind fun _ => .never (.pure _)
  | binary span op left right =>
    rw [Rendering.expr]
    exact (hhead rfl).bind fun _ => (FailsAt.never (Rendering.fails_operator op)).bind fun _ =>
      (hparts right (by simp [children])).bind fun _ => .never (.pure _)
  | paren span inner =>
    rw [Rendering.expr]
    exact (hhead rfl).bind fun _ => .never (.pure _)
  | call span callee args =>
    have hcallee : callee ∈ (call span callee args).subexprs := by
      rw [subexprs]
      exact List.mem_cons_of_mem _ (List.mem_append_left _ (mem_subexprs_self _))
    have hargs : FailsAt place (Rendering.exprs b args) :=
      failsAt_exprs fun a ha => hparts a (List.mem_cons_of_mem _ ha)
    rw [Rendering.expr]
    refine (hunknown callee hcallee).bind fun _ => ?_
    cases callee.calledIntrinsic? b with
    | some intrinsic => exact (FailsAt.never (.pure _)).bind fun _ => hargs.bind fun _ => .never (.pure _)
    | none => exact (hhead rfl).bind fun _ => hargs.bind fun _ => .never (.pure _)
  | unary | update | conditional | array | object | new | asType | satisfiesType | nonNull | optionalChain =>
    rw [Rendering.expr]
    exact hmasked
termination_by sizeOf e
decreasing_by exact sizeOf_lt_of_mem_children hc

end Expr

/-! ## Statements -/

namespace Stmt

variable {s : Stmt} {span : Span}

/-- What an expression of a statement shows the statement shows. -/
theorem shows_of_mem_exprs {e : Expr} (he : e ∈ s.exprs) (h : e.tree.Shows span) : s.tree.Shows span := by
  cases s with
  | break_ | continue_ | block | empty => cases he
  | var _ _ decls =>
    obtain ⟨d, hd, hinit⟩ := List.mem_filterMap.mp he
    have hpart : e.tree ∈ d.tree.parts := by simp [Declarator.tree, SpanTree.parts, hinit]
    exact .part (List.mem_map_of_mem hd) (.of_part hpart h)
  | return_ => exact .part (List.mem_map_of_mem he) h
  | for_ =>
    refine .part (p := e.tree) ?_ h
    rcases List.mem_append.mp he with he | he <;> simp [Option.mem_toList.mp he]
  | expr | throw | if_ | while_ | doWhile | forEach =>
    cases List.mem_singleton.mp he
    exact .part (p := e.tree) (by simp) h

/-- What a statement inside a statement shows the statement shows. -/
theorem shows_of_mem_stmts {c : Stmt} (hc : c ∈ s.stmts) (h : c.tree.Shows span) : s.tree.Shows span := by
  cases s with
  | var | expr | return_ | break_ | continue_ | throw | empty => cases hc
  | while_ | doWhile | forEach =>
    cases List.mem_singleton.mp hc
    exact .part (p := c.tree) (by simp) h
  | if_ _ cond thenBranch elseBranch =>
    refine .part (p := c.tree) (List.mem_cons_of_mem _ ?_) h
    rw [optionTrees_eq_map, ← List.map_cons]
    exact List.mem_map_of_mem hc
  | for_ =>
    refine .part (p := c.tree) ?_ h
    simp only [stmts, List.mem_append, List.mem_singleton] at hc
    rcases hc with hc | rfl
    · simp [optionTrees_eq_map, List.mem_map_of_mem hc]
    · simp
  | block =>
    refine .part ?_ h
    rw [trees_eq_map]
    exact List.mem_map_of_mem hc

theorem shows_of_mem_allExprs {s : Stmt} {e : Expr} {span : Span} (he : e ∈ s.allExprs) (h : e.tree.Shows span) :
    s.tree.Shows span := by
  rw [allExprs_eq] at he
  rcases List.mem_append.mp he with he | he
  · exact shows_of_mem_exprs he h
  · obtain ⟨c, hc, he⟩ := List.mem_flatMap.mp he
    exact shows_of_mem_stmts hc (shows_of_mem_allExprs he h)
termination_by sizeOf s
decreasing_by exact sizeOf_lt_of_mem_stmts hc

end Stmt

namespace Writing

variable {b : Bindings} {place : Span → Prop}

/-- On the page a text fails where it does by itself. -/
theorem failsAt_onPage {α : Type} {r : Rendering α} (h : FailsAt place r) : FailsAt place r.onPage := by
  intro page err page' hr
  unfold Rendering.onPage at hr
  cases hrun : r page.notes with
  | ok a notes =>
    rw [hrun] at hr
    cases hr
  | error err' notes =>
    rw [hrun] at hr
    cases hr
    exact h _ _ _ hrun

/-- More indentation makes no difference to where writing fails. -/
theorem failsAt_indented {α : Type} {w : Writing RenderError α} (h : FailsAt place w) : FailsAt place (indented w) := by
  intro page err page' hr
  unfold indented at hr
  cases hrun : w { page with depth := page.depth + 1 } with
  | ok a page₁ =>
    rw [hrun] at hr
    cases hr
  | error err' page₁ =>
    rw [hrun] at hr
    cases hr
    exact h _ _ _ hrun

/-- An expression on the page fails at a place it shows. -/
theorem failsAt_pushExpr (e : Expr) (h : ∀ span, e.tree.Shows span → place span) : FailsAt place (pushExpr b e) :=
  (failsAt_onPage (e.failsAt_expr h)).bind fun text => .never (fails_push text)

/-- What was found before fails where it did. -/
theorem failsAt_ofExcept {α : Type} {r : Except RenderError α} (h : ∀ err, r = .error err → place err.span) :
    FailsAt place (ofExcept r) := by
  refine .of_fails (fails_ofExcept r) fun err herr => h err ?_
  cases r with
  | ok => cases herr
  | error => exact congrArg Except.error (Option.some.inj herr)

/-- A variable without an initializer is found at its declaration. -/
theorem failsAt_declarator (d : Declarator) (h : ∀ span, d.tree.Shows span → place span) :
    FailsAt place (declarator b d) := by
  unfold declarator
  cases hinit : d.init with
  | none => exact .of_fails (.throw _) fun err herr => Option.some.inj herr ▸ h d.span .root
  | some init =>
    refine (failsAt_ofExcept fun err herr => ?_).bind fun type => (FailsAt.never (fails_push _)).bind fun _ => ?_
    · cases htype : d.type with
      | none =>
        rw [htype] at herr
        cases herr
      | some type =>
        rw [htype] at herr
        exact h _ (.part (p := type.tree) (by simp [htype]) (type.shows_of_solidity herr))
    · refine (failsAt_pushExpr init fun span hspan => h span ?_).bind fun _ => .never (fails_push _)
      exact .part (p := init.tree) (by simp [hinit]) hspan

/-- The variables after the first one fail at places they show. -/
theorem failsAt_moreDeclarators {ds : List Declarator} (h : ∀ d ∈ ds, ∀ span, d.tree.Shows span → place span) :
    FailsAt place (moreDeclarators b ds) := by
  induction ds with
  | nil => exact .never (.pure ())
  | cons d ds ih =>
    obtain ⟨hd, hds⟩ := List.forall_mem_cons.mp h
    rw [moreDeclarators]
    exact (FailsAt.never (fails_line "")).bind fun _ => (failsAt_declarator d hd).bind fun _ => ih hds

theorem failsAt_declarators {ds : List Declarator} (h : ∀ d ∈ ds, ∀ span, d.tree.Shows span → place span) :
    FailsAt place (declarators b ds) := by
  cases ds with
  | nil => exact .never (.pure ())
  | cons d ds =>
    obtain ⟨hd, hds⟩ := List.forall_mem_cons.mp h
    rw [declarators]
    exact (failsAt_declarator d hd).bind fun _ => failsAt_moreDeclarators hds

theorem failsAt_stmtPlaceholder (s : Stmt) (h : ∀ span, s.tree.Shows span → place span) :
    FailsAt place (stmtPlaceholder b s) := by
  refine .of_fails (fails_stmtPlaceholder s) fun err herr => h _ ?_
  obtain ⟨e, he, hunknown⟩ := List.exists_of_findSome?_eq_some herr
  exact Stmt.shows_of_mem_allExprs he (Expr.shows_of_firstUnknown? hunknown)

mutual

/-- Writing a statement fails at something that stands in it. -/
theorem failsAt_stmtAt (at_ : Place) (s : Stmt) (h : ∀ span, s.tree.Shows span → place span) :
    FailsAt place (stmtAt b at_ s) := by
  have hstart : FailsAt place at_.start := .never (fails_start at_)
  have hpush : ∀ text, FailsAt place (push text : Writing RenderError Unit) := fun text => .never (fails_push text)
  have hline : ∀ text, FailsAt place (line text : Writing RenderError Unit) := fun text => .never (fails_line text)
  have hexpr : ∀ e ∈ s.exprs, FailsAt place (pushExpr b e) :=
    fun e he => failsAt_pushExpr e fun span hspan => h span (Stmt.shows_of_mem_exprs he hspan)
  have hstmt : ∀ c ∈ s.stmts, ∀ span, c.tree.Shows span → place span :=
    fun c hc span hspan => h span (Stmt.shows_of_mem_stmts hc hspan)
  cases s with
  | return_ span value =>
    rw [stmtAt]
    refine hstart.bind fun _ => (hpush _).bind fun _ => ?_
    cases value with
    | none => exact (FailsAt.never (.pure ())).bind fun _ => hpush _
    | some e =>
      have hvalue : FailsAt place (do push " "; pushExpr b e) := (hpush " ").bind fun _ => hexpr e (by simp [Stmt.exprs])
      exact hvalue.bind fun _ => hpush _
  | if_ span cond thenBranch elseBranch =>
    rw [stmtAt]
    refine hstart.bind fun _ => (hpush _).bind fun _ => (hexpr cond (by simp [Stmt.exprs])).bind fun _ => ?_
    refine (hpush _).bind fun _ => ?_
    refine (failsAt_indented (failsAt_stmtAt .branch thenBranch (hstmt _ (by simp [Stmt.stmts])))).bind fun _ => ?_
    exact (hline _).bind fun _ => failsAt_elseAt elseBranch fun c hc => hstmt c (by simp [Stmt.stmts, Option.mem_def.mp hc])
  | var span kind decls =>
    rw [stmtAt]
    exact hstart.bind fun _ => failsAt_declarators fun d hd span hspan => h span (.part (List.mem_map_of_mem hd) hspan)
  | expr span e =>
    rw [stmtAt]
    exact hstart.bind fun _ => (hexpr e (by simp [Stmt.exprs])).bind fun _ => hpush _
  | while_ span cond body =>
    rw [stmtAt]
    refine hstart.bind fun _ => (hpush _).bind fun _ => (hexpr cond (by simp [Stmt.exprs])).bind fun _ => ?_
    refine (hpush _).bind fun _ => ?_
    refine (failsAt_indented (failsAt_stmtAt .branch body (hstmt _ (by simp [Stmt.stmts])))).bind fun _ => hline _
  | block span ss =>
    cases at_ with
    | branch =>
      rw [stmtAt]
      exact failsAt_stmts ss hstmt
    | lastLine =>
      rw [stmtAt]
      exact failsAt_stmtPlaceholder _ h
  | doWhile | for_ | forEach | break_ | continue_ | throw | empty =>
    rw [stmtAt]
    exact hstart.bind fun _ => failsAt_stmtPlaceholder _ h

theorem failsAt_elseAt (branch : Option Stmt) (h : ∀ s ∈ branch, ∀ span, s.tree.Shows span → place span) :
    FailsAt place (elseAt b branch) := by
  cases branch with
  | none => exact .never (.pure ())
  | some s =>
    rw [elseAt]
    exact (FailsAt.never (fails_line _)).bind fun _ => (failsAt_stmtAt .branch s (h s rfl)).bind fun _ =>
      .never (fails_line _)

theorem failsAt_stmts (ss : List Stmt) (h : ∀ s ∈ ss, ∀ span, s.tree.Shows span → place span) :
    FailsAt place (stmts b ss) := by
  cases ss with
  | nil => exact .never (.pure ())
  | cons s ss =>
    obtain ⟨hs, hss⟩ := List.forall_mem_cons.mp h
    rw [stmts]
    exact (FailsAt.never (fails_line _)).bind fun _ => (failsAt_stmtAt .lastLine s hs).bind fun _ => failsAt_stmts ss hss

end

end Writing

/-! ## Classes -/

/-- The failure of a result is what the result is. -/
theorem errorOf_eq_some_iff {ε α : Type} {r : Except ε α} {err : ε} : errorOf r = some err ↔ r = .error err := by
  cases r <;> simp [errorOf]

/-- A parameter without a type is found at its name. -/
theorem Param.shows_of_solidity (p : Param) {err : RenderError} (h : p.solidity = .error err) : p.tree.Shows err.span := by
  unfold Param.solidity at h
  cases htype : p.type with
  | none =>
    rw [htype] at h
    cases h
    exact .part (p := p.name.tree) (by simp) .root
  | some type =>
    rw [htype] at h
    rw [← errorOf_eq_some_iff, errorOf_bind_pure, errorOf_eq_some_iff] at h
    exact .part (p := type.tree) (by simp [htype]) (type.shows_of_solidity h)

/-- The first line of a callable fails at a parameter or at the type of its result. -/
theorem shows_of_signature {name : String} {params : List Param} {returns : Option TypeExpr} (body : Option Block)
    {err : RenderError} (h : signature name params returns = .error err) :
    ∃ t ∈ callableTrees params returns body, t.Shows err.span := by
  rw [← errorOf_eq_some_iff, errorOf_signature, Option.or_eq_some_iff] at h
  rcases h with h | ⟨-, h⟩
  · obtain ⟨p, hp, herr⟩ := List.exists_of_findSome?_eq_some h
    refine ⟨p.tree, ?_, p.shows_of_solidity (errorOf_eq_some_iff.mp herr)⟩
    simp [callableTrees, List.mem_map_of_mem hp]
  · split at h
    · cases h
    · cases returns with
      | none => cases h
      | some type =>
        rw [returnsClause] at h
        split at h
        · cases h
        · rw [errorOf_bind_pure, errorOf_eq_some_iff] at h
          exact ⟨type.tree, by simp [callableTrees], type.shows_of_solidity h⟩

namespace Writing

variable {b : Bindings} {place : Span → Prop}

/-- A callable fails at a place that its parameters, its result or its body show. -/
theorem failsAt_callable (name : String) {params : List Param} {returns : Option TypeExpr} {body : Option Block}
    (h : ∀ t ∈ callableTrees params returns body, ∀ span, t.Shows span → place span) :
    FailsAt place (callable b name params returns body) := by
  unfold callable
  refine (failsAt_ofExcept fun err herr => ?_).bind fun text => (FailsAt.never (fails_line text)).bind fun _ => ?_
  · obtain ⟨t, ht, hshows⟩ := shows_of_signature body herr
    exact h t ht _ hshows
  · cases body with
    | none => exact (FailsAt.never (.pure ())).bind fun _ => .never (fails_line _)
    | some block =>
      have hstmts : ∀ s ∈ block.stmts, ∀ span, s.tree.Shows span → place span := fun s hs span hspan =>
        h block.tree (by simp [callableTrees]) span (.part (List.mem_map_of_mem hs) hspan)
      exact (failsAt_indented (failsAt_stmts block.stmts hstmts)).bind fun _ => .never (fails_line _)

/-- A property without a type is found at the whole member. -/
theorem failsAt_member (m : Member) (h : ∀ span, m.tree.Shows span → place span) : FailsAt place (member b m) := by
  have hparts : ∀ t ∈ m.shape.trees, ∀ span, t.Shows span → place span :=
    fun t ht span hspan => h span (.part (List.mem_append_right _ ht) hspan)
  unfold member
  cases hshape : m.shape with
  | property name type init =>
    rw [hshape] at hparts
    unfold property
    cases type with
    | none => exact .of_fails (.throw _) fun err herr => Option.some.inj herr ▸ h m.span .root
    | some type =>
      refine (failsAt_ofExcept fun err herr => ?_).bind fun text => ?_
      · exact hparts type.tree (by simp [MemberShape.trees]) _ (type.shows_of_solidity herr)
      · cases init with
        | none => exact (FailsAt.never (.pure "")).bind fun _ => .never (fails_line _)
        | some e =>
          have he := failsAt_onPage (e.failsAt_expr (b := b) (hparts e.tree (by simp [MemberShape.trees])))
          exact he.bind fun _ => (FailsAt.never (.pure _)).bind fun _ => .never (fails_line _)
  | constructor params body =>
    rw [hshape] at hparts
    exact failsAt_callable _ hparts
  | method name params returns body =>
    rw [hshape] at hparts
    exact (failsAt_callable _ fun t ht => hparts t (List.mem_cons_of_mem _ ht)).bind fun _ => .never (fails_line _)
  | accessor | indexSignature => exact (FailsAt.never (fails_note _)).bind fun _ => .never (fails_line _)

/-- Members fail at places they show. -/
theorem failsAt_members {ms : List Member} (h : ∀ m ∈ ms, ∀ span, m.tree.Shows span → place span) :
    FailsAt place (members b ms) := by
  induction ms with
  | nil => exact .never (.pure ())
  | cons m ms ih =>
    obtain ⟨hm, hms⟩ := List.forall_mem_cons.mp h
    rw [members]
    exact (failsAt_member m hm).bind fun _ => ih hms

/-- A class fails at a place it shows. -/
theorem failsAt_contract (c : ClassDecl) (h : ∀ span, c.tree.Shows span → place span) : FailsAt place (contract b c) := by
  have hmembers : ∀ m ∈ c.members, ∀ span, m.tree.Shows span → place span := by
    refine fun m hm span hspan => h span (.part ?_ hspan)
    simp [List.mem_map_of_mem hm]
  exact (FailsAt.never (fails_note _)).bind fun _ => (FailsAt.never (fails_line _)).bind fun _ =>
    (failsAt_indented (failsAt_members hmembers)).bind fun _ => .never (fails_line _)

end Writing

/-- A class is refused at something that stands in it. -/
theorem ClassDecl.shows_of_render {c : ClassDecl} {indent : String} {b : Bindings} {err : RenderError}
    (h : c.render indent b = .error err) : c.tree.Shows err.span := by
  unfold render at h
  cases hrun : Writing.contract b c (Page.blank indent) with
  | ok u page =>
    rw [hrun] at h
    cases h
  | error err₁ page =>
    rw [hrun] at h
    cases h
    exact Writing.failsAt_contract c (fun _ hspan => hspan) _ _ _ hrun

end ContractCompiler
