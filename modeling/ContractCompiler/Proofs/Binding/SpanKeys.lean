import ContractCompiler.Proofs.Binding.Receiver

/-!
# Spans as keys of bindings

No two member accesses of a parsed file have the same span, wherever in the file they stand. So the bindings of a file have
one entry for each access to the receiver, and what is found at the span of a member access was bound for that access.
-/

namespace ContractCompiler

/-! ## The accesses of a member, place by place -/

namespace Scope

/-- The accesses at a place, where the names around it are declared. -/
def placeAccesses (scope : Scope) (p : List String × Expr) : List Access := (scope.declare p.1).exprAccesses p.2

/-- Names around places are declared for the accesses there. -/
theorem flatMap_placeAccesses_under (scope : Scope) (names : List String) (places : List (List String × Expr)) :
    (under names places).flatMap scope.placeAccesses = places.flatMap (scope.declare names).placeAccesses := by
  rw [under, List.flatMap_map]
  refine List.flatMap_congr fun p _ => ?_
  rw [placeAccesses, placeAccesses, declare_declare]

/-- Where nothing is declared the accesses are those in the expressions. -/
theorem flatMap_placeAccesses_bare (scope : Scope) (es : List Expr) :
    (es.map fun e => (([] : List String), e)).flatMap scope.placeAccesses = es.flatMap scope.exprAccesses := by
  simp [List.flatMap_map, placeAccesses, declare_nil]

/-- The accesses in several statements are those in each of them. -/
theorem listAccesses_eq (scope : Scope) (ss : List Stmt) : scope.listAccesses ss = ss.flatMap scope.stmtAccesses := by
  induction ss with
  | nil => rfl
  | cons s ss ih => rw [listAccesses, ih, List.flatMap_cons]

/-- The accesses of a statement are those of the expressions and of the statements directly inside it, each listed as
often there. -/
theorem stmtAccesses_perm_openings (scope : Scope) (s : Stmt) :
    (scope.stmtAccesses s).Perm
      (s.shown.flatMap scope.placeAccesses ++ s.openings.flatMap fun o => (scope.declare o.1).stmtAccesses o.2) := by
  cases s with
  | var | expr | return_ | throw | break_ | continue_ | empty =>
    simp [stmtAccesses, optionAccesses, Stmt.shown, Stmt.openings, Stmt.exprs, List.flatMap_map, placeAccesses, declare_nil]
  | if_ span cond thenBranch elseBranch =>
    cases elseBranch <;>
      simp [stmtAccesses, branchAccesses, Stmt.shown, Stmt.openings, Stmt.exprs, placeAccesses, declare_nil]
  | while_ | doWhile => simp [stmtAccesses, Stmt.shown, Stmt.openings, Stmt.exprs, placeAccesses, declare_nil]
  | for_ span init test update body =>
    cases init with
    | none =>
      simp [stmtAccesses, headerAccesses, optionAccesses, Stmt.shown, Stmt.openings, List.flatMap_map, placeAccesses,
        declare_nil]
    | some init =>
      -- the initializer comes before the test and the update here, and after them in the statement
      simp only [stmtAccesses, headerAccesses, optionAccesses, Stmt.shown, Stmt.openings, List.flatMap_map, placeAccesses,
        declare_declare, List.flatMap_append, List.map_append, Option.toList_some, List.flatMap_cons, List.flatMap_nil,
        List.append_nil, List.map_cons, List.map_nil, List.append_assoc]
      simp only [← List.append_assoc]
      refine List.Perm.append_right _ ?_
      rw [List.append_assoc]
      exact List.perm_append_comm
  | forEach => simp [stmtAccesses, Stmt.shown, Stmt.openings, Stmt.exprs, placeAccesses, declare_nil, declare_declare]
  | block span stmts =>
    simp [stmtAccesses, listAccesses_eq, Stmt.shown, Stmt.openings, Stmt.exprs, List.flatMap_map]

/-- The accesses of a statement are those at its places. -/
theorem stmtAccesses_perm (scope : Scope) (s : Stmt) :
    (scope.stmtAccesses s).Perm (s.places.flatMap scope.placeAccesses) := by
  induction s using Stmt.openings_induction generalizing scope with
  | h s ih =>
    refine (scope.stmtAccesses_perm_openings s).trans ?_
    rw [Stmt.places_eq, List.flatMap_append, List.flatMap_assoc]
    refine List.Perm.append_left _ (List.Perm.flatMap_left _ fun o ho => ?_)
    rw [flatMap_placeAccesses_under]
    exact ih o.1 o.2 ho _

/-- The accesses in a callable are those at its places. -/
theorem callableAccesses_perm (scope : Scope) (params : List Param) (body : Option Block) :
    (scope.callableAccesses params body).Perm ((Member.callablePlaces params body).flatMap scope.placeAccesses) := by
  rw [callableAccesses, Member.callablePlaces, List.flatMap_append, flatMap_placeAccesses_bare, List.flatMap_assoc]
  refine List.Perm.append_left _ (List.Perm.flatMap_left _ fun b _ => ?_)
  rw [blockAccesses, listAccesses_eq, declare_declare, List.flatMap_assoc]
  refine List.Perm.flatMap_left _ fun s _ => ?_
  rw [flatMap_placeAccesses_under]
  exact stmtAccesses_perm _ s

/-- The accesses of a member are those at its places. -/
theorem memberAccesses_perm (scope : Scope) (m : Member) :
    (scope.memberAccesses m).Perm (m.places.flatMap scope.placeAccesses) := by
  unfold memberAccesses Member.places
  cases m.shape with
  | property name type init =>
    simp only [flatMap_placeAccesses_bare]
    exact .refl _
  | constructor params body | method _ params _ body | accessor _ _ params _ body => exact callableAccesses_perm scope params body
  | indexSignature => exact .refl _

end Scope

/-- The accesses of a file are those at its places. -/
theorem SourceFile.accesses_perm (file : SourceFile) (receiver : String) :
    (file.accesses receiver).Perm
      (file.places.flatMap (⟨file.receivers receiver, []⟩ : Scope).placeAccesses) := by
  simp only [accesses, places, List.flatMap_assoc]
  exact List.Perm.flatMap_left _ fun c _ => List.Perm.flatMap_left _ fun m _ => Scope.memberAccesses_perm _ m


/-! ## Member accesses are known by their spans -/

namespace SourceFile

/-- Every expression of a file, whatever it stands in. -/
def subexprs (file : SourceFile) : List Expr := file.exprs.flatMap Expr.subexprs

/-- The access is the one that is bound for the expression `x`, at a place where `x` stands. -/
def BoundAs (file : SourceFile) (receiver : String) (x : Expr) (a : Access) : Prop :=
  ∃ p ∈ file.places, x ∈ p.2.subexprs ∧ (⟨file.receivers receiver, p.1⟩ : Scope).access? x = some a

variable {file : SourceFile} {receiver : String} {x : Expr} {a : Access}

/-- What stands at a place stands in the file. -/
theorem mem_subexprs_of_mem_places {p : List String × Expr} (hp : p ∈ file.places) (hx : x ∈ p.2.subexprs) :
    x ∈ file.subexprs :=
  List.mem_flatMap.mpr ⟨p.2, file.places_snd_subperm.subset (List.mem_map_of_mem hp), hx⟩

/-- An access is bound if it is bound for some expression. -/
theorem mem_accesses_iff_boundAs : a ∈ file.accesses receiver ↔ ∃ x, file.BoundAs receiver x a := by
  rw [(file.accesses_perm receiver).mem_iff, List.mem_flatMap]
  simp only [Scope.placeAccesses, Scope.exprAccesses, List.mem_filterMap, Scope.declare, List.append_nil, BoundAs]
  constructor
  · rintro ⟨p, hp, x, hx, ha⟩
    exact ⟨x, p, hp, hx, ha⟩
  · rintro ⟨x, p, hp, hx, ha⟩
    exact ⟨p, hp, x, hx, ha⟩

/-- An access is bound under the span of its expression. -/
theorem BoundAs.memberSpan? (h : file.BoundAs receiver x a) : x.memberSpan? = some a.span := by
  obtain ⟨p, -, -, ha⟩ := h
  obtain ⟨object, member, rfl, -⟩ := Scope.access?_eq_some_iff.mp ha
  rfl

/-- An access is bound for an expression of the file. -/
theorem BoundAs.mem_subexprs (h : file.BoundAs receiver x a) : x ∈ file.subexprs := by
  obtain ⟨p, hp, hx, -⟩ := h
  exact mem_subexprs_of_mem_places hp hx

end SourceFile

/-- The spans of the accesses are among those of the member accesses, in their order. -/
theorem Scope.spans_exprAccesses_sublist (scope : Scope) (e : Expr) :
    ((scope.exprAccesses e).map Access.span).Sublist e.memberSpans := by
  rw [exprAccesses, Expr.memberSpans, List.filterMap_eq_flatMap_toList, List.filterMap_eq_flatMap_toList, List.map_flatMap]
  refine List.Sublist.flatMap_right _ fun x _ => ?_
  cases ha : scope.access? x with
  | none => exact List.nil_sublist _
  | some a =>
    obtain ⟨object, member, hx, -⟩ := Scope.access?_eq_some_iff.mp ha
    rw [hx]
    exact List.Sublist.refl _

/-- No two member accesses of a parsed file have the same span. -/
theorem memberSpans_nodup (source : String) : ((parse source).file.subexprs.filterMap Expr.memberSpan?).Nodup := by
  rw [SourceFile.subexprs, List.filterMap_flatMap]
  refine List.Nodup.of_map Span.stop ?_
  rw [List.map_flatMap]
  exact memberStops_nodup source

/-- Two member accesses of a parsed file with the same span are one. -/
theorem eq_of_memberSpan?_eq {source : String} {x y : Expr} {span : Span} (hx : x ∈ (parse source).file.subexprs)
    (hy : y ∈ (parse source).file.subexprs) (hxs : x.memberSpan? = some span) (hys : y.memberSpan? = some span) :
    x = y := by
  have hnodup := memberSpans_nodup source
  rw [List.filterMap_eq_flatMap_toList] at hnodup
  exact eq_of_nodup_flatMap hnodup hx hy (x := span) (by simp [hxs]) (by simp [hys])

/-- No two accesses that are bound in a parsed file have the same span. -/
theorem accessSpans_nodup (source receiver : String) :
    (((parse source).file.accesses receiver).map Access.span).Nodup := by
  have hperm := ((parse source).file.accesses_perm receiver).map Access.span
  rw [hperm.nodup_iff, List.map_flatMap]
  have hplaces := subperm_flatMap (SourceFile.places_snd_subperm (parse source).file) Expr.memberSpans
  rw [List.flatMap_map] at hplaces
  have hsub := List.Sublist.flatMap_right (parse source).file.places fun p _ =>
    Scope.spans_exprAccesses_sublist ((⟨(parse source).file.receivers receiver, []⟩ : Scope).declare p.1) p.2
  have hnodup := memberSpans_nodup source
  rw [SourceFile.subexprs, List.filterMap_flatMap] at hnodup
  obtain ⟨spans, hspans, hle⟩ := hsub.subperm.trans hplaces
  exact hspans.nodup_iff.mp (hnodup.sublist hle)

/-! ## Bindings with distinct spans -/

namespace Bindings

variable {accesses : List Access}

/-- Accesses with different spans are bound one by one, in their order. -/
theorem entries_ofAccesses (h : (accesses.map Access.span).Nodup) :
    (ofAccesses accesses).entries = accesses.map fun a => (a.span, a.target) := by
  induction accesses using List.reverseRecOn with
  | nil => rfl
  | append_singleton accesses a ih =>
    rw [List.map_append, List.nodup_append] at h
    obtain ⟨hnodup, -, hfresh⟩ := h
    have hkeep : (accesses.map fun a => (a.span, a.target)).filter (fun entry => entry.1 ≠ a.span) =
        accesses.map fun a => (a.span, a.target) := by
      rw [List.filter_eq_self]
      intro entry hentry
      obtain ⟨a', ha', rfl⟩ := List.mem_map.mp hentry
      exact decide_eq_true (hfresh _ (List.mem_map_of_mem ha') _ (by simp))
    rw [ofAccesses_snoc, insert, ih hnodup, hkeep, List.map_append]
    rfl

/-- Accesses with different spans are bound each. -/
theorem size_ofAccesses (h : (accesses.map Access.span).Nodup) : (ofAccesses accesses).size = accesses.length := by
  rw [size, entries_ofAccesses h, List.length_map]

/-- Among accesses with different spans each is found by its span. -/
theorem get?_ofAccesses {a : Access} (h : (accesses.map Access.span).Nodup) (ha : a ∈ accesses) :
    (ofAccesses accesses).get? a.span = some a.target := by
  obtain ⟨target, htarget⟩ := exists_get?_ofAccesses ha
  obtain ⟨a', ha', hspan, rfl⟩ := exists_of_get?_ofAccesses htarget
  rw [htarget, List.inj_on_of_nodup_map h ha' ha hspan]

end Bindings

/-- Spans are keys for the bindings of a file: no two member accesses anywhere in a parsed file have the same span, so there
are as many bindings as accesses that are bound, and at the span of a member access stands what was bound for that access,
or nothing if nothing was. -/
theorem span_determines_binding (source : String) :
    ((parse source).file.subexprs.filterMap Expr.memberSpan?).Nodup ∧
    ∀ receiver, ((parse source).file.bindings receiver).size = ((parse source).file.accesses receiver).length ∧
      ∀ x ∈ (parse source).file.subexprs, ∀ span, x.memberSpan? = some span → ∀ target,
        ((parse source).file.bindings receiver).get? span = some target ↔
          ∃ a, (parse source).file.BoundAs receiver x a ∧ a.target = target := by
  refine ⟨memberSpans_nodup source, fun receiver => ?_⟩
  have hnodup := accessSpans_nodup source receiver
  refine ⟨Bindings.size_ofAccesses hnodup, fun x hx span hspan target => ⟨fun h => ?_, ?_⟩⟩
  · obtain ⟨a, ha, rfl, htarget⟩ := Bindings.exists_of_get?_ofAccesses h
    obtain ⟨y, hy⟩ := SourceFile.mem_accesses_iff_boundAs.mp ha
    obtain rfl : x = y := eq_of_memberSpan?_eq hx hy.mem_subexprs hspan hy.memberSpan?
    exact ⟨a, hy, htarget⟩
  · rintro ⟨a, ha, rfl⟩
    obtain rfl : a.span = span := Option.some.inj (ha.memberSpan?.symm.trans hspan)
    exact Bindings.get?_ofAccesses hnodup (SourceFile.mem_accesses_iff_boundAs.mpr ⟨x, ha⟩)

end ContractCompiler
