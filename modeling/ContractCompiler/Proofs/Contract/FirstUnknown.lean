import ContractCompiler.Proofs.Binding.SpanKeys
import ContractCompiler.Proofs.Contract.Failure

/-!
# The first unknown access

An expression is looked through in two ways: writing it finds the texts of its parts one after the other and leaves out the
callee of an intrinsic, and checking it, which is all that happens to it inside a placeholder, goes through every node, a node
before its parts. Both stop at the same access, the first one that is bound to something the receiver does not offer, and
report it alike.
-/

namespace ContractCompiler

namespace Expr

variable {b : Bindings}

/-- On a name, an unknown access is reported with the name, with what was asked for and at the place of the member. -/
theorem unknownIntrinsic?_eq_some_iff {e : Expr} (h : e.OnNames b) {err : RenderError} :
    e.unknownIntrinsic? b = some err ↔ ∃ span object name offered, e = .member span (.ident object) name ∧
      b.get? span = some (.unknown offered) ∧ err = .unknownIntrinsic object.name offered name.span := by
  constructor
  · intro herr
    have hunknown : e.IsUnknown b := by
      by_contra hnot
      rw [unknownIntrinsic?_eq_none_iff.mpr hnot] at herr
      cases herr
    cases e with
    | member span target name =>
      obtain ⟨offered, hget⟩ := hunknown
      obtain ⟨object, rfl⟩ := h span target name (mem_subexprs_self _) (by simp [hget])
      simp only [unknownIntrinsic?, hget, Option.some.injEq] at herr
      exact ⟨span, object, name, offered, rfl, hget, herr.symm⟩
    | _ => exact hunknown.elim
  · rintro ⟨span, object, name, offered, rfl, hget, rfl⟩
    simp [unknownIntrinsic?, hget]

/-- What stands inside a part of an expression stands inside the expression. -/
theorem subexprs_subset {e x : Expr} (hx : x ∈ e.subexprs) : x.subexprs ⊆ e.subexprs := by
  have hstep : ∀ c ∈ e.children, c.subexprs ⊆ e.subexprs := by
    intro c hc y hy
    rw [subexprs_eq]
    exact List.mem_cons_of_mem _ (List.mem_flatMap.mpr ⟨c, hc, hy⟩)
  rw [subexprs_eq] at hx
  rcases List.mem_cons.mp hx with rfl | hx
  · exact List.Subset.refl _
  · obtain ⟨c, hc, hxc⟩ := List.mem_flatMap.mp hx
    exact List.Subset.trans (subexprs_subset hxc) (hstep c hc)
termination_by sizeOf e
decreasing_by exact sizeOf_lt_of_mem_children hc

/-- If the bound accesses in an expression are on names, so are those in everything inside it. -/
theorem OnNames.subexpr {e x : Expr} (h : e.OnNames b) (hx : x ∈ e.subexprs) : x.OnNames b :=
  fun span target name hmem => h span target name (subexprs_subset hx hmem)

/-- Checking an expression finds the first unknown access in it. -/
theorem OnNames.firstUnknown?_eq_some_iff {e : Expr} (h : e.OnNames b) {err : RenderError} :
    e.firstUnknown? b = some err ↔
      ∃ (before : List Expr) (span : Span) (object name : Ident) (offered : String) (after : List Expr),
      e.subexprs = before ++ Expr.member span (.ident object) name :: after ∧ b.get? span = some (.unknown offered) ∧
      (∀ x ∈ before, ¬ x.IsUnknown b) ∧ err = .unknownIntrinsic object.name offered name.span := by
  rw [firstUnknown?, List.findSome?_eq_some_iff]
  constructor
  · rintro ⟨before, x, after, hsplit, hx, hbefore⟩
    have honNames : x.OnNames b := h.subexpr (by simp [hsplit])
    obtain ⟨span, object, name, offered, rfl, hget, rfl⟩ := (unknownIntrinsic?_eq_some_iff honNames).mp hx
    exact ⟨before, span, object, name, offered, after, hsplit, hget,
      fun y hy => unknownIntrinsic?_eq_none_iff.mp (hbefore y hy), rfl⟩
  · rintro ⟨before, span, object, name, offered, after, hsplit, hget, hbefore, rfl⟩
    exact ⟨before, _, after, hsplit, by simp [unknownIntrinsic?, hget],
      fun y hy => unknownIntrinsic?_eq_none_iff.mpr (hbefore y hy)⟩

end Expr

/-- Anywhere in a parsed file, what is bound is an access on a name. -/
theorem onNames_of_mem_subexprs {source : String} (receiver : String) {e : Expr} (he : e ∈ (parse source).file.subexprs) :
    e.OnNames ((parse source).file.bindings receiver) := by
  intro span target name hmem hbound
  obtain ⟨bound, hget⟩ := Option.ne_none_iff_exists'.mp hbound
  obtain ⟨a, ha, rfl, -⟩ := Bindings.exists_of_get?_ofAccesses hget
  obtain ⟨y, hy⟩ := SourceFile.mem_accesses_iff_boundAs.mp ha
  have hmem' : .member a.span target name ∈ (parse source).file.subexprs := by
    obtain ⟨root, hroot, he⟩ := List.mem_flatMap.mp he
    exact List.mem_flatMap.mpr ⟨root, hroot, Expr.subexprs_subset he hmem⟩
  obtain rfl := eq_of_memberSpan?_eq hmem' hy.mem_subexprs rfl hy.memberSpan?
  obtain ⟨p, -, -, haccess⟩ := hy
  obtain ⟨object, member, hnode, -⟩ := Scope.access?_eq_some_iff.mp haccess
  cases hnode
  exact ⟨object, rfl⟩

/-- Checking an expression looks at the node and then at its parts, in their order. Where bound accesses are on names, as
they are anywhere in a parsed file, writing an expression fails exactly if checking it fails, and with the same failure,
whatever was noted before. This is the first unknown access of the expression, a node before its parts; it is reported with
the name it is on, with what was asked for and at the place of the member. -/
theorem writing_fails_as_checking (b : Bindings) (e : Expr) :
    e.firstUnknown? b = (e.unknownIntrinsic? b).or (e.children.findSome? (Expr.firstUnknown? b)) ∧
    (e.OnNames b →
      (∀ journal, failureOf (Rendering.expr b e journal) = e.firstUnknown? b) ∧
      ∀ err, e.firstUnknown? b = some err ↔ ∃ before span object name offered after,
        e.subexprs = before ++ .member span (.ident object) name :: after ∧ b.get? span = some (.unknown offered) ∧
        (∀ x ∈ before, ¬ x.IsUnknown b) ∧ err = .unknownIntrinsic object.name offered name.span) ∧
    ∀ source receiver : String, e ∈ (parse source).file.subexprs → b = (parse source).file.bindings receiver → e.OnNames b := by
  refine ⟨e.firstUnknown?_eq b, fun h => ⟨h.fails_expr, fun err => h.firstUnknown?_eq_some_iff⟩, ?_⟩
  rintro source receiver he rfl
  exact onNames_of_mem_subexprs receiver he

/-- A call to an intrinsic, `ETH.assert(!ETH.bogus, ETH.gone)`, with two unknown accesses, the first inside a placeholder. -/
def guardedCall : Expr :=
  let eth (start : Nat) : Expr := .ident ⟨"ETH", ⟨start, start + 3⟩⟩
  .call ⟨0, 32⟩ (.member ⟨0, 10⟩ (eth 0) ⟨"assert", ⟨4, 10⟩⟩)
    [.unary ⟨11, 21⟩ .not (.member ⟨12, 21⟩ (eth 12) ⟨"bogus", ⟨16, 21⟩⟩), .member ⟨23, 31⟩ (eth 23) ⟨"gone", ⟨27, 31⟩⟩]

/-- What the accesses in `guardedCall` are bound to. -/
def guardedBindings : Bindings :=
  ⟨[(⟨0, 10⟩, .known .assert), (⟨12, 21⟩, .unknown "bogus"), (⟨23, 31⟩, .unknown "gone")]⟩

/-- Both ways of looking through `guardedCall` stop at the access in the placeholder. -/
theorem guardedCall_fails :
    guardedCall.OnNames guardedBindings ∧
      failureOf (Rendering.expr guardedBindings guardedCall []) = some (.unknownIntrinsic "ETH" "bogus" ⟨16, 21⟩) ∧
      guardedCall.firstUnknown? guardedBindings = some (.unknownIntrinsic "ETH" "bogus" ⟨16, 21⟩) := by
  have hnames : guardedCall.OnNames guardedBindings := by
    intro span target name hmem _
    simp only [guardedCall, Expr.subexprs, Expr.subexprsOf, List.append_nil, List.cons_append, List.nil_append, List.mem_cons,
      List.not_mem_nil, reduceCtorEq, Expr.member.injEq, or_false, false_or] at hmem
    rcases hmem with ⟨-, rfl, -⟩ | ⟨-, rfl, -⟩ | ⟨-, rfl, -⟩ <;> exact ⟨_, rfl⟩
  obtain ⟨-, hagree, -⟩ := writing_fails_as_checking guardedBindings guardedCall
  have hcheck : guardedCall.firstUnknown? guardedBindings = some (.unknownIntrinsic "ETH" "bogus" ⟨16, 21⟩) := by
    decide +kernel
  exact ⟨hnames, ((hagree hnames).1 []).trans hcheck, hcheck⟩

end ContractCompiler
