import ContractCompiler.Contract.Members
import ContractCompiler.Proofs.Binding.SpanKeys
import ContractCompiler.Proofs.Reading.Spelling

/-!
# Classes are written independently

All classes of a file are written with the same bindings. Writing a class looks bindings up at the spans of its own member
accesses only (`Expr.SeenAlike` and what follows from it), and what is found there was bound for the class itself, since no
other class of the file has a member access at such a span. So what else stands in the file matters to a class only through
the names of the receiver.
-/

namespace ContractCompiler

variable {b b' : Bindings}

/-! ## What writing looks up -/

namespace Expr

/-- The bindings find the same at every member access inside the expression. -/
def SeenAlike (b' b : Bindings) (e : Expr) : Prop := ∀ span ∈ e.memberSpans, b'.get? span = b.get? span

/-- Bindings that see an expression alike see every member access inside it alike. -/
theorem SeenAlike.of_mem_subexprs {e x : Expr} (h : e.SeenAlike b' b) (hx : x ∈ e.subexprs) {span : Span}
    (hspan : x.memberSpan? = some span) : b'.get? span = b.get? span :=
  h span (List.mem_filterMap.mpr ⟨x, hx, hspan⟩)

theorem SeenAlike.child {e c : Expr} (h : e.SeenAlike b' b) (hc : c ∈ e.children) : c.SeenAlike b' b := by
  intro span hspan
  obtain ⟨x, hx, hspan⟩ := List.mem_filterMap.mp hspan
  refine h.of_mem_subexprs ?_ hspan
  rw [subexprs_eq]
  exact List.mem_cons_of_mem _ (List.mem_flatMap.mpr ⟨c, hc, hx⟩)

section Access

variable {e : Expr} (h : ∀ span, e.memberSpan? = some span → b'.get? span = b.get? span)

include h

/-- The same intrinsic is found to be called. -/
theorem calledIntrinsic?_congr : e.calledIntrinsic? b' = e.calledIntrinsic? b := by
  cases e with
  | member span target name => rw [calledIntrinsic?, calledIntrinsic?, h span rfl]
  | _ => rfl

/-- The same unknown intrinsic is found. -/
theorem unknownIntrinsic?_congr : e.unknownIntrinsic? b' = e.unknownIntrinsic? b := by
  cases e with
  | member span target name =>
    unfold unknownIntrinsic?
    dsimp only
    rw [h span rfl]
  | _ => rfl

end Access

/-- What is found first among some things depends on what is found in each of them. -/
theorem findSome?_congr {α β : Type} {f g : α → Option β} {as : List α} (h : ∀ a ∈ as, f a = g a) :
    as.findSome? f = as.findSome? g := by
  induction as with
  | nil => rfl
  | cons a as ih =>
    obtain ⟨ha, has⟩ := List.forall_mem_cons.mp h
    rw [List.findSome?_cons, List.findSome?_cons, ha, ih has]

/-- Bindings that see an expression alike see the expression itself alike. -/
theorem SeenAlike.self {e : Expr} (h : e.SeenAlike b' b) {span : Span} (hspan : e.memberSpan? = some span) :
    b'.get? span = b.get? span := by
  refine h.of_mem_subexprs ?_ hspan
  rw [subexprs_eq]
  exact List.mem_cons_self

/-- The first unknown access in an expression depends on what the bindings find in it. -/
theorem SeenAlike.firstUnknown?_eq {e : Expr} (h : e.SeenAlike b' b) : e.firstUnknown? b' = e.firstUnknown? b :=
  findSome?_congr fun _ hx => unknownIntrinsic?_congr fun _ hspan => h.of_mem_subexprs hx hspan

end Expr

namespace Rendering

/-- Several expressions are written the same if each of them is. -/
theorem exprs_congr {es : List Expr} (h : ∀ e ∈ es, expr b' e = expr b e) : exprs b' es = exprs b es := by
  induction es with
  | nil => rw [exprs, exprs]
  | cons e es ih =>
    obtain ⟨he, hes⟩ := List.forall_mem_cons.mp h
    rw [exprs, exprs, he, ih hes]

/-- An expression is written alike with bindings that find the same at its member accesses. -/
theorem expr_congr {e : Expr} (h : e.SeenAlike b' b) : expr b' e = expr b e := by
  have hparts : ∀ c ∈ e.children, expr b' c = expr b c := fun c hc => expr_congr (h.child hc)
  cases e with
  | literal | ident | this | super => rw [expr, expr]
  | member span target name =>
    rw [expr, expr, Expr.unknownIntrinsic?_congr fun _ => h.self, hparts target (by simp [Expr.children])]
  | index span target key =>
    rw [expr, expr, hparts target (by simp [Expr.children]), hparts key (by simp [Expr.children])]
  | binary span op left right =>
    rw [expr, expr, hparts left (by simp [Expr.children]), hparts right (by simp [Expr.children])]
  | paren span inner => rw [expr, expr, hparts inner (by simp [Expr.children])]
  | call span callee args =>
    have hcallee : callee.SeenAlike b' b := h.child (by simp [Expr.children])
    rw [expr, expr, Expr.unknownIntrinsic?_congr fun _ => hcallee.self, Expr.calledIntrinsic?_congr fun _ => hcallee.self,
      hparts callee (by simp [Expr.children]), exprs_congr fun a ha => hparts a (by simp [Expr.children, ha])]
  | unary | update | conditional | array | object | new | asType | satisfiesType | nonNull | optionalChain =>
    rw [expr, expr, h.firstUnknown?_eq]
termination_by sizeOf e
decreasing_by exact Expr.sizeOf_lt_of_mem_children hc

end Rendering

namespace Writing

/-- An expression is put on the page the same. -/
theorem pushExpr_congr {e : Expr} (h : e.SeenAlike b' b) : pushExpr b' e = pushExpr b e := by
  rw [pushExpr, pushExpr, Rendering.expr_congr h]

/-- A variable is written the same if its value is seen alike. -/
theorem declarator_congr {d : Declarator} (h : ∀ e ∈ d.init, e.SeenAlike b' b) : declarator b' d = declarator b d := by
  unfold declarator
  cases hinit : d.init with
  | none => rfl
  | some init => simp only [pushExpr_congr (h init hinit)]

theorem moreDeclarators_congr {ds : List Declarator} (h : ∀ d ∈ ds, ∀ e ∈ d.init, e.SeenAlike b' b) :
    moreDeclarators b' ds = moreDeclarators b ds := by
  induction ds with
  | nil => rfl
  | cons d ds ih =>
    obtain ⟨hd, hds⟩ := List.forall_mem_cons.mp h
    rw [moreDeclarators, moreDeclarators, declarator_congr hd, ih hds]

theorem declarators_congr {ds : List Declarator} (h : ∀ d ∈ ds, ∀ e ∈ d.init, e.SeenAlike b' b) :
    declarators b' ds = declarators b ds := by
  cases ds with
  | nil => rfl
  | cons d ds =>
    obtain ⟨hd, hds⟩ := List.forall_mem_cons.mp h
    rw [declarators, declarators, declarator_congr hd, moreDeclarators_congr hds]

theorem stmtPlaceholder_congr {s : Stmt} (h : ∀ e ∈ s.allExprs, e.SeenAlike b' b) :
    stmtPlaceholder b' s = stmtPlaceholder b s := by
  have hunknown : firstUnknown? b' s = firstUnknown? b s := Expr.findSome?_congr fun e he => (h e he).firstUnknown?_eq
  rw [stmtPlaceholder, stmtPlaceholder, hunknown]

mutual

/-- A statement is written alike with bindings that find the same at the member accesses in it. -/
theorem stmtAt_congr (place : Place) (s : Stmt) (h : ∀ e ∈ s.allExprs, e.SeenAlike b' b) :
    stmtAt b' place s = stmtAt b place s := by
  cases s with
  | return_ span value =>
    cases value with
    | none => rw [stmtAt, stmtAt]
    | some e => simp only [stmtAt, pushExpr_congr (h e (by simp [Stmt.allExprs]))]
  | if_ span cond thenBranch elseBranch =>
    simp only [Stmt.allExprs, List.forall_mem_cons, List.forall_mem_append] at h
    obtain ⟨hcond, hthen, helse⟩ := h
    rw [stmtAt, stmtAt, pushExpr_congr hcond, stmtAt_congr .branch thenBranch hthen, elseAt_congr elseBranch helse]
  | var span kind decls =>
    rw [stmtAt, stmtAt, declarators_congr fun d hd e he => h e (List.mem_filterMap.mpr ⟨d, hd, he⟩)]
  | expr span e =>
    rw [stmtAt, stmtAt, pushExpr_congr (h e (by simp [Stmt.allExprs]))]
  | while_ span cond body =>
    simp only [Stmt.allExprs, List.forall_mem_cons] at h
    rw [stmtAt, stmtAt, pushExpr_congr h.1, stmtAt_congr .branch body h.2]
  | block span ss =>
    cases place with
    | branch => rw [stmtAt, stmtAt, stmts_congr ss h]
    | lastLine => rw [stmtAt, stmtAt, stmtPlaceholder_congr h]
  | doWhile | for_ | forEach | break_ | continue_ | throw | empty =>
    rw [stmtAt, stmtAt, stmtPlaceholder_congr h]

theorem elseAt_congr (branch : Option Stmt) (h : ∀ e ∈ Stmt.allExprsOption branch, e.SeenAlike b' b) :
    elseAt b' branch = elseAt b branch := by
  cases branch with
  | none => rw [elseAt, elseAt]
  | some s => rw [elseAt, elseAt, stmtAt_congr .branch s h]

theorem stmts_congr (ss : List Stmt) (h : ∀ e ∈ Stmt.allExprsList ss, e.SeenAlike b' b) : stmts b' ss = stmts b ss := by
  cases ss with
  | nil => rw [stmts, stmts]
  | cons s ss =>
    simp only [Stmt.allExprsList, List.forall_mem_append] at h
    rw [stmts, stmts, stmtAt_congr .lastLine s h.1, stmts_congr ss h.2]

end

/-- A callable is written the same if the expressions in its body are seen alike. -/
theorem callable_congr (name : String) (params : List Param) (returns : Option TypeExpr) {body : Option Block}
    (h : ∀ e ∈ body.toList.flatMap Block.exprs, e.SeenAlike b' b) :
    callable b' name params returns body = callable b name params returns body := by
  cases body with
  | none => rfl
  | some block =>
    have hstmts : stmts b' block.stmts = stmts b block.stmts := by
      refine stmts_congr _ fun e he => h e ?_
      rw [Stmt.allExprsList_eq_flatMap] at he
      exact List.mem_flatMap.mpr ⟨block, by simp, he⟩
    simp only [callable, hstmts]

/-- A property is written the same if its value is seen alike. -/
theorem property_congr (span : Span) (name : Ident) (type : Option TypeExpr) {init : Option Expr}
    (h : ∀ e ∈ init.toList, e.SeenAlike b' b) : property b' span name type init = property b span name type init := by
  cases init with
  | none => rfl
  | some e => simp only [property, Rendering.expr_congr (h e (by simp))]

/-- A member is written alike with bindings that find the same at the member accesses in it, decorators apart. -/
theorem member_congr {m : Member} (h : ∀ e ∈ m.shape.exprs, e.SeenAlike b' b) : member b' m = member b m := by
  unfold member
  cases hshape : m.shape with
  | property name type init =>
    rw [hshape] at h
    exact property_congr _ _ _ h
  | constructor params body =>
    rw [hshape] at h
    exact callable_congr _ _ _ fun e he => h e (List.mem_append_right _ he)
  | method name params returns body =>
    rw [hshape] at h
    dsimp only
    rw [callable_congr _ _ _ fun e he => h e (List.mem_append_right _ he)]
  | accessor | indexSignature => rfl

theorem members_congr {ms : List Member} (h : ∀ m ∈ ms, ∀ e ∈ m.shape.exprs, e.SeenAlike b' b) :
    members b' ms = members b ms := by
  induction ms with
  | nil => rfl
  | cons m ms ih =>
    obtain ⟨hm, hms⟩ := List.forall_mem_cons.mp h
    rw [members, members, member_congr hm, ih hms]

end Writing

/-- The contract of a class depends on what the bindings find in its members. -/
theorem ClassDecl.render_congr {c : ClassDecl} (h : ∀ m ∈ c.members, ∀ e ∈ m.shape.exprs, e.SeenAlike b' b)
    (indent : String) : c.render indent b' = c.render indent b := by
  rw [render, render, Writing.contract, Writing.contract, Writing.members_congr h]

/-! ## Whose bindings are found -/

namespace ClassDecl

/-- The accesses to the receiver in a class, by the names of the receiver in its file. -/
def accesses (receivers : List String) (c : ClassDecl) : List Access :=
  c.members.flatMap (⟨receivers, []⟩ : Scope).memberAccesses

/-- The spans of the member accesses in a class. -/
def memberSpans (c : ClassDecl) : List Span := c.exprs.flatMap Expr.memberSpans

variable {c : ClassDecl} {e : Expr} {m : Member} {a : Access} {receivers : List String}

/-- A member access in a member of the class is one in the class. -/
theorem mem_memberSpans (hm : m ∈ c.members) (he : e ∈ m.shape.exprs) {span : Span} (hspan : span ∈ e.memberSpans) :
    span ∈ c.memberSpans := by
  refine List.mem_flatMap.mpr ⟨e, ?_, hspan⟩
  exact List.mem_append_right _ (List.mem_flatMap.mpr ⟨m, hm, List.mem_append_right _ he⟩)

/-- An access to the receiver in the class is a member access in it. -/
theorem span_mem_of_mem_accesses (ha : a ∈ c.accesses receivers) : a.span ∈ c.memberSpans := by
  obtain ⟨m, hm, ha⟩ := List.mem_flatMap.mp ha
  obtain ⟨names, e, he, ha⟩ := Scope.mem_memberAccesses_iff.mp ha
  have hheld : e ∈ m.shape.exprs := by
    rw [← Member.places_snd]
    exact List.mem_map_of_mem (Member.mem_places.mpr he)
  refine mem_memberSpans hm hheld ?_
  exact (Scope.spans_exprAccesses_sublist _ e).subset (List.mem_map_of_mem ha)

end ClassDecl

/-- Two classes of a parsed file with member accesses at one span are one. -/
theorem eq_of_mem_memberSpans {source : String} {c d : ClassDecl} {span : Span} (hc : c ∈ (parse source).file.classes)
    (hd : d ∈ (parse source).file.classes) (hcs : span ∈ c.memberSpans) (hds : span ∈ d.memberSpans) : c = d := by
  have hnodup := memberSpans_nodup source
  rw [SourceFile.subexprs, List.filterMap_flatMap, SourceFile.exprs_eq, List.flatMap_assoc] at hnodup
  exact eq_of_nodup_flatMap hnodup hc hd hcs hds

/-- The second file has no items but those of the first, in whatever order and number, with the same imports; the class `c`
is in the class tables of both, and the same names of the receiver are hidden by classes. -/
structure SourceFile.Rearranged (file file' : SourceFile) (receiver : String) (c : ClassDecl) : Prop where
  items_subset : ∀ item ∈ file'.items, item ∈ file.items
  imports_eq : file'.imports = file.imports
  mem_classes : c ∈ (ClassTable.ofFile file).classes
  mem_classes' : c ∈ (ClassTable.ofFile file').classes
  hides : ∀ name ∈ file.candidateReceivers receiver,
    (ClassTable.ofFile file').contains name = (ClassTable.ofFile file).contains name

namespace SourceFile.Rearranged

variable {file file' : SourceFile} {receiver : String} {c : ClassDecl}

/-- A file is a rearrangement of itself. -/
theorem refl (hc : c ∈ (ClassTable.ofFile file).classes) : file.Rearranged file receiver c where
  items_subset _ hitem := hitem
  imports_eq := rfl
  mem_classes := hc
  mem_classes' := hc
  hides _ _ := rfl

/-- The receiver has the same names in both files. -/
theorem receivers_eq (h : file.Rearranged file' receiver c) : file'.receivers receiver = file.receivers receiver := by
  have hcandidates : file'.candidateReceivers receiver = file.candidateReceivers receiver := by
    unfold candidateReceivers importedAs
    rw [h.imports_eq]
  unfold receivers
  rw [hcandidates]
  refine List.filter_congr fun name hname => ?_
  rw [h.hides name hname]

/-- The second file has no classes but those of the first. -/
theorem classes_subset (h : file.Rearranged file' receiver c) {d : ClassDecl} (hd : d ∈ file'.classes) :
    d ∈ file.classes := by
  obtain ⟨item, hitem, hd⟩ := List.mem_filterMap.mp hd
  exact List.mem_filterMap.mpr ⟨item, h.items_subset item hitem, hd⟩

/-- At a member access of the class, the bindings of the rearranged file find what the class itself bound there. -/
theorem get?_eq_some_iff {source : String} (h : (parse source).file.Rearranged file' receiver c) {span : Span}
    (hspan : span ∈ c.memberSpans) {target : Target} :
    (file'.bindings receiver).get? span = some target ↔
      ∃ a ∈ c.accesses ((parse source).file.receivers receiver), a.span = span ∧ a.target = target := by
  have haccesses : file'.accesses receiver =
      (ClassTable.ofFile file').classes.flatMap (ClassDecl.accesses ((parse source).file.receivers receiver)) := by
    rw [← h.receivers_eq]
    rfl
  have hfound : ∀ {t : Target}, (file'.bindings receiver).get? span = some t →
      ∃ a ∈ c.accesses ((parse source).file.receivers receiver), a.span = span ∧ a.target = t := by
    intro t ht
    obtain ⟨a, ha, rfl, rfl⟩ := Bindings.exists_of_get?_ofAccesses ht
    rw [haccesses] at ha
    obtain ⟨d, hd, ha⟩ := List.mem_flatMap.mp ha
    -- the access stands in a class of the parsed file, and only `c` has one at this span
    have hdc : d = c := eq_of_mem_memberSpans (h.classes_subset (ClassTable.mem_of_mem_classes hd))
      (ClassTable.mem_of_mem_classes h.mem_classes) (ClassDecl.span_mem_of_mem_accesses ha) hspan
    exact ⟨a, hdc ▸ ha, rfl, rfl⟩
  refine ⟨hfound, ?_⟩
  rintro ⟨a, ha, rfl, rfl⟩
  have hmade : a ∈ file'.accesses receiver := by
    rw [haccesses]
    exact List.mem_flatMap.mpr ⟨c, h.mem_classes', ha⟩
  obtain ⟨t, ht⟩ := Bindings.exists_get?_ofAccesses hmade
  obtain ⟨a', ha', hsame, rfl⟩ := hfound ht
  have hmem : ∀ {x : Access}, x ∈ c.accesses ((parse source).file.receivers receiver) →
      x ∈ (parse source).file.accesses receiver := fun hx => List.mem_flatMap.mpr ⟨c, h.mem_classes, hx⟩
  obtain rfl : a' = a := List.inj_on_of_nodup_map (accessSpans_nodup source receiver) (hmem ha') (hmem ha) hsame
  exact ht

end SourceFile.Rearranged

/-- Classes are written independently: if items of a parsed file are left out, repeated or reordered and a class is still the
one of its name, the imports are the same and the same names of the receiver are hidden by classes, then the class is written
as before, or fails as before. -/
theorem render_of_rearranged {source receiver : String} {c : ClassDecl} {file' : SourceFile}
    (h : (parse source).file.Rearranged file' receiver c) (indent : String) :
    c.render indent (file'.bindings receiver) = c.render indent ((parse source).file.bindings receiver) := by
  refine ClassDecl.render_congr (fun m hm e he span hspan => ?_) indent
  have hin := ClassDecl.mem_memberSpans hm he hspan
  have hself : (parse source).file.Rearranged (parse source).file receiver c := .refl h.mem_classes
  ext target
  rw [h.get?_eq_some_iff hin, hself.get?_eq_some_iff hin]

/-- The receiver `M` is imported as `L`; the class `A` is declared twice, and a parameter of `B` is called `L`. -/
def twiceSource : String :=
  "import\x7bM as L\x7dfrom'm';class A\x7bf()\x7bL.log\x7d\x7dclass B\x7bf(L)\x7bL.log\x7d\x7dtype T=1;class A\x7bf()\x7bL.pay(L)\x7d\x7d"

/-- The items of `twiceSource` without the earlier class `A` and the type, with `B` twice and before the import. -/
def twiceRearranged : SourceFile :=
  let items := (parse twiceSource).file.items
  ⟨(items.drop 2).take 1 ++ (items.drop 2).take 1 ++ items.take 1 ++ items.drop 4⟩

/-- The last class of a name is still the last one with other items before. -/
theorem lastNamed?_of_append {items items' : List Item} {name : String} {c : ClassDecl}
    (h : lastNamed? (SourceFile.mk items').classes name = some c) :
    lastNamed? (SourceFile.mk (items ++ items')).classes name = some c := by
  unfold lastNamed? SourceFile.classes at *
  rw [List.filterMap_append, List.reverse_append, List.find?_append, h, Option.some_or]

/-- The last class of a name among the later items is the last one of the file. -/
theorem lastNamed?_of_drop {file : SourceFile} {n : Nat} {name : String} {c : ClassDecl}
    (h : lastNamed? (SourceFile.mk (file.items.drop n)).classes name = some c) :
    lastNamed? file.classes name = some c := by
  have happend : lastNamed? (SourceFile.mk (file.items.take n ++ file.items.drop n)).classes name = some c :=
    lastNamed?_of_append h
  rwa [List.take_append_drop] at happend

/-- The last class of its name is in the class table. -/
theorem mem_classes_of_lastNamed? {file : SourceFile} {name : String} {c : ClassDecl}
    (h : lastNamed? file.classes name = some c) : c ∈ (ClassTable.ofFile file).classes := by
  rw [ClassTable.classes_ofFile]
  refine List.mem_filterMap.mpr ⟨name, ?_, h⟩
  exact mem_declaredClassNames.mpr ⟨c, mem_of_lastNamed? h, name_of_lastNamed? h⟩

/-- What becomes of the later class `A` is the same in both files. -/
theorem twiceSource_rendered :
    ∃ c, lastNamed? (parse twiceSource).file.classes "A" = some c ∧
      (parse twiceSource).file.Rearranged twiceRearranged "M" c ∧
      c.render "  " (twiceRearranged.bindings "M") = c.render "  " ((parse twiceSource).file.bindings "M") := by
  have hread : "A" ∈ declaredClassNames (SourceFile.mk ((parse twiceSource).file.items.drop 4)).classes ∧
      twiceRearranged.imports = (parse twiceSource).file.imports ∧
      ∀ name ∈ (parse twiceSource).file.candidateReceivers "M",
        (ClassTable.ofFile twiceRearranged).contains name = (ClassTable.ofFile (parse twiceSource).file).contains name := by
    decide +kernel
  obtain ⟨hnames, himports, hhides⟩ := hread
  obtain ⟨c, hc⟩ := exists_lastNamed? hnames
  have hlast : lastNamed? (parse twiceSource).file.classes "A" = some c := lastNamed?_of_drop hc
  have hrearranged : (parse twiceSource).file.Rearranged twiceRearranged "M" c := by
    refine ⟨fun item hitem => ?_, himports, mem_classes_of_lastNamed? hlast,
      mem_classes_of_lastNamed? (lastNamed?_of_append hc), hhides⟩
    simp only [twiceRearranged, List.mem_append] at hitem
    rcases hitem with ((hitem | hitem) | hitem) | hitem
    · exact List.mem_of_mem_drop (List.mem_of_mem_take hitem)
    · exact List.mem_of_mem_drop (List.mem_of_mem_take hitem)
    · exact List.mem_of_mem_take hitem
    · exact List.mem_of_mem_drop hitem
  exact ⟨c, hlast, hrearranged, render_of_rearranged hrearranged "  "⟩

end ContractCompiler
