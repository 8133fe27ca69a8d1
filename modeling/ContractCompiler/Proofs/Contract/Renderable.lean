import ContractCompiler.Proofs.Contract.UnknownAccess

/-!
# Which classes can be written

A class can be written exactly if each of its members can: a property has a type and its initializer accesses nothing
unknown; a callable has types that can be written, its body declares variables properly where statements are written out,
and nothing unknown is accessed anywhere in it. Where an expression stands in another one, or in a statement, is said by
`Expr.OccursIn` and `Expr.StandsIn`, position by position; where statements are written out, by `Stmt.WrittenIn`.
-/

namespace ContractCompiler

/-! ## Positions of expressions -/

namespace Expr

/-- The expression `x` is a part of another one, or all of it. -/
inductive OccursIn (x : Expr) : Expr → Prop
  | whole : OccursIn x x
  | memberTarget {span target name} (h : OccursIn x target) : OccursIn x (.member span target name)
  | indexTarget {span target key} (h : OccursIn x target) : OccursIn x (.index span target key)
  | indexKey {span target key} (h : OccursIn x key) : OccursIn x (.index span target key)
  | callee {span callee args} (h : OccursIn x callee) : OccursIn x (.call span callee args)
  | callArg {span callee args arg} (harg : arg ∈ args) (h : OccursIn x arg) : OccursIn x (.call span callee args)
  | left {span op left right} (h : OccursIn x left) : OccursIn x (.binary span op left right)
  | right {span op left right} (h : OccursIn x right) : OccursIn x (.binary span op left right)
  | unary {span op operand} (h : OccursIn x operand) : OccursIn x (.unary span op operand)
  | update {span op leading operand} (h : OccursIn x operand) : OccursIn x (.update span op leading operand)
  | test {span test consequent alternate} (h : OccursIn x test) : OccursIn x (.conditional span test consequent alternate)
  | consequent {span test consequent alternate} (h : OccursIn x consequent) :
    OccursIn x (.conditional span test consequent alternate)
  | alternate {span test consequent alternate} (h : OccursIn x alternate) :
    OccursIn x (.conditional span test consequent alternate)
  | paren {span inner} (h : OccursIn x inner) : OccursIn x (.paren span inner)
  | element {span elements element} (helement : element ∈ elements) (h : OccursIn x element) :
    OccursIn x (.array span elements)
  | field {span fields field} (hfield : field ∈ fields) (h : OccursIn x field.value) : OccursIn x (.object span fields)
  | newCallee {span callee args} (h : OccursIn x callee) : OccursIn x (.new span callee args)
  | newArg {span callee args arg} (harg : arg ∈ args) (h : OccursIn x arg) : OccursIn x (.new span callee args)
  | asType {span operand type} (h : OccursIn x operand) : OccursIn x (.asType span operand type)
  | satisfiesType {span operand type} (h : OccursIn x operand) : OccursIn x (.satisfiesType span operand type)
  | nonNull {span operand} (h : OccursIn x operand) : OccursIn x (.nonNull span operand)
  | optionalChain {span link} (h : OccursIn x link) : OccursIn x (.optionalChain span link)

variable {x e c : Expr}

/-- What is inside a part is inside the whole. -/
theorem mem_subexprs_of_child (hc : c ∈ e.children) (h : x ∈ c.subexprs) : x ∈ e.subexprs := by
  rw [subexprs_eq]
  exact List.mem_cons_of_mem _ (List.mem_flatMap.mpr ⟨c, hc, h⟩)

/-- What occurs in an expression is inside it. -/
theorem OccursIn.mem_subexprs (h : x.OccursIn e) : x ∈ e.subexprs := by
  induction h with
  | whole => exact mem_subexprs_self x
  | field hfield _ ih => exact mem_subexprs_of_child (List.mem_map_of_mem hfield) ih
  | _ =>
    refine mem_subexprs_of_child ?_ ‹_›
    simp [children, *]

/-- What occurs in a part occurs in the whole. -/
theorem OccursIn.of_child (hc : c ∈ e.children) (h : x.OccursIn c) : x.OccursIn e := by
  cases e with
  | literal | ident | this | super => cases hc
  | member =>
    cases List.mem_singleton.mp hc
    exact .memberTarget h
  | index =>
    rcases List.mem_pair.mp hc with rfl | rfl
    · exact .indexTarget h
    · exact .indexKey h
  | call =>
    rcases List.mem_cons.mp hc with rfl | hc
    · exact .callee h
    · exact .callArg hc h
  | binary =>
    rcases List.mem_pair.mp hc with rfl | rfl
    · exact .left h
    · exact .right h
  | unary =>
    cases List.mem_singleton.mp hc
    exact .unary h
  | update =>
    cases List.mem_singleton.mp hc
    exact .update h
  | conditional =>
    rcases List.mem_cons.mp hc with rfl | hc
    · exact .test h
    · rcases List.mem_pair.mp hc with rfl | rfl
      · exact .consequent h
      · exact .alternate h
  | paren =>
    cases List.mem_singleton.mp hc
    exact .paren h
  | array => exact .element hc h
  | object =>
    obtain ⟨field, hfield, rfl⟩ := List.mem_map.mp hc
    exact .field hfield h
  | new =>
    rcases List.mem_cons.mp hc with rfl | hc
    · exact .newCallee h
    · exact .newArg hc h
  | asType =>
    cases List.mem_singleton.mp hc
    exact .asType h
  | satisfiesType =>
    cases List.mem_singleton.mp hc
    exact .satisfiesType h
  | nonNull =>
    cases List.mem_singleton.mp hc
    exact .nonNull h
  | optionalChain =>
    cases List.mem_singleton.mp hc
    exact .optionalChain h

/-- What is inside an expression occurs in it. -/
theorem OccursIn.of_mem_subexprs {e : Expr} (h : x ∈ e.subexprs) : x.OccursIn e := by
  rw [subexprs_eq] at h
  rcases List.mem_cons.mp h with rfl | h
  · exact .whole
  · obtain ⟨c, hc, hx⟩ := List.mem_flatMap.mp h
    exact .of_child hc (.of_mem_subexprs hx)
termination_by sizeOf e
decreasing_by exact sizeOf_lt_of_mem_children hc

/-- The expression `x` is a part of an expression anywhere in a statement. -/
inductive StandsIn (x : Expr) : Stmt → Prop
  | varInit {span kind decls d init} (hd : d ∈ decls) (hinit : d.init = some init) (h : x.OccursIn init) :
    StandsIn x (.var span kind decls)
  | expr {span e} (h : x.OccursIn e) : StandsIn x (.expr span e)
  | returnValue {span e} (h : x.OccursIn e) : StandsIn x (.return_ span (some e))
  | ifCond {span cond thenBranch elseBranch} (h : x.OccursIn cond) : StandsIn x (.if_ span cond thenBranch elseBranch)
  | ifThen {span cond thenBranch elseBranch} (h : StandsIn x thenBranch) :
    StandsIn x (.if_ span cond thenBranch elseBranch)
  | ifElse {span cond thenBranch elseBranch} (h : StandsIn x elseBranch) :
    StandsIn x (.if_ span cond thenBranch (some elseBranch))
  | whileCond {span cond body} (h : x.OccursIn cond) : StandsIn x (.while_ span cond body)
  | whileBody {span cond body} (h : StandsIn x body) : StandsIn x (.while_ span cond body)
  | doBody {span body cond} (h : StandsIn x body) : StandsIn x (.doWhile span body cond)
  | doCond {span body cond} (h : x.OccursIn cond) : StandsIn x (.doWhile span body cond)
  | forInit {span init test update body} (h : StandsIn x init) : StandsIn x (.for_ span (some init) test update body)
  | forTest {span init test update body} (h : x.OccursIn test) : StandsIn x (.for_ span init (some test) update body)
  | forUpdate {span init test update body} (h : x.OccursIn update) : StandsIn x (.for_ span init test (some update) body)
  | forBody {span init test update body} (h : StandsIn x body) : StandsIn x (.for_ span init test update body)
  | eachIterable {span kind binding traversal iterable body} (h : x.OccursIn iterable) :
    StandsIn x (.forEach span kind binding traversal iterable body)
  | eachBody {span kind binding traversal iterable body} (h : StandsIn x body) :
    StandsIn x (.forEach span kind binding traversal iterable body)
  | thrown {span e} (h : x.OccursIn e) : StandsIn x (.throw span e)
  | inBlock {span ss s} (hs : s ∈ ss) (h : StandsIn x s) : StandsIn x (.block span ss)

/-- What stands in a statement occurs in one of its expressions. -/
theorem StandsIn.exists_mem {s : Stmt} (h : x.StandsIn s) : ∃ e ∈ s.allExprs, x.OccursIn e := by
  induction h with
  | varInit hd hinit h => exact ⟨_, List.mem_filterMap.mpr ⟨_, hd, hinit⟩, h⟩
  | expr h | returnValue h | ifCond h | whileCond h | doCond h | forTest h | forUpdate h | eachIterable h | thrown h =>
    exact ⟨_, by simp [Stmt.allExprs], h⟩
  | ifThen _ ih | ifElse _ ih | whileBody _ ih | doBody _ ih | forInit _ ih | forBody _ ih | eachBody _ ih =>
    obtain ⟨e, he, hx⟩ := ih
    exact ⟨e, by simp [Stmt.allExprs, Stmt.allExprsOption, he], hx⟩
  | inBlock hs _ ih =>
    obtain ⟨e, he, hx⟩ := ih
    refine ⟨e, ?_, hx⟩
    rw [Stmt.allExprs, Stmt.allExprsList_eq_flatMap]
    exact List.mem_flatMap.mpr ⟨_, hs, he⟩

/-- What is part of an expression that a statement directly holds stands in it. -/
theorem StandsIn.of_mem_exprs {s : Stmt} (he : e ∈ s.exprs) (h : x.OccursIn e) : x.StandsIn s := by
  cases s with
  | var =>
    obtain ⟨d, hd, hinit⟩ := List.mem_filterMap.mp he
    exact .varInit hd hinit h
  | expr =>
    cases List.mem_singleton.mp he
    exact .expr h
  | return_ =>
    cases Option.mem_toList.mp he
    exact .returnValue h
  | if_ =>
    cases List.mem_singleton.mp he
    exact .ifCond h
  | while_ =>
    cases List.mem_singleton.mp he
    exact .whileCond h
  | doWhile =>
    cases List.mem_singleton.mp he
    exact .doCond h
  | for_ =>
    rcases List.mem_append.mp he with he | he
    · cases Option.mem_toList.mp he
      exact .forTest h
    · cases Option.mem_toList.mp he
      exact .forUpdate h
  | forEach =>
    cases List.mem_singleton.mp he
    exact .eachIterable h
  | throw =>
    cases List.mem_singleton.mp he
    exact .thrown h
  | break_ | continue_ | block | empty => cases he

/-- What stands in a statement that another one directly holds stands in that one. -/
theorem StandsIn.of_mem_stmts {s t : Stmt} (ht : t ∈ s.stmts) (h : x.StandsIn t) : x.StandsIn s := by
  cases s with
  | if_ =>
    rcases List.mem_cons.mp ht with rfl | ht
    · exact .ifThen h
    · cases Option.mem_toList.mp ht
      exact .ifElse h
  | while_ =>
    cases List.mem_singleton.mp ht
    exact .whileBody h
  | doWhile =>
    cases List.mem_singleton.mp ht
    exact .doBody h
  | for_ =>
    rcases List.mem_append.mp ht with ht | ht
    · cases Option.mem_toList.mp ht
      exact .forInit h
    · cases List.mem_singleton.mp ht
      exact .forBody h
  | forEach =>
    cases List.mem_singleton.mp ht
    exact .eachBody h
  | block => exact .inBlock ht h
  | var | expr | return_ | break_ | continue_ | throw | empty => cases ht

/-- What occurs in one of its expressions stands in the statement. -/
theorem standsIn_of_mem_allExprs {s : Stmt} (he : e ∈ s.allExprs) (h : x.OccursIn e) : x.StandsIn s := by
  rw [Stmt.allExprs_eq] at he
  rcases List.mem_append.mp he with he | he
  · exact .of_mem_exprs he h
  · obtain ⟨t, ht, he⟩ := List.mem_flatMap.mp he
    exact .of_mem_stmts ht (standsIn_of_mem_allExprs he h)
termination_by sizeOf s
decreasing_by exact Stmt.sizeOf_lt_of_mem_stmts ht

variable {b : Bindings}

/-- No unknown access is found in an expression just if none occurs in it. -/
theorem firstUnknown?_eq_none_iff_occursIn : e.firstUnknown? b = none ↔ ∀ x : Expr, x.OccursIn e → ¬ x.IsUnknown b := by
  rw [firstUnknown?_eq_none_iff]
  constructor
  · intro h x hx hunknown
    cases x with
    | member span target name =>
      obtain ⟨offered, hget⟩ := hunknown
      exact h span target name offered hx.mem_subexprs hget
    | _ => exact hunknown
  · intro h span target name offered hmem hget
    exact h _ (.of_mem_subexprs hmem) ⟨offered, hget⟩

/-- No expression in a statement has an unknown access exactly if none stands in the statement. -/
theorem firstUnknown?_eq_none_iff_standsIn {s : Stmt} :
    (∀ e ∈ s.allExprs, e.firstUnknown? b = none) ↔ ∀ x : Expr, x.StandsIn s → ¬ x.IsUnknown b := by
  constructor
  · intro h x hx
    obtain ⟨e, he, hocc⟩ := hx.exists_mem
    exact firstUnknown?_eq_none_iff_occursIn.mp (h e he) x hocc
  · intro h e he
    rw [firstUnknown?_eq_none_iff_occursIn]
    exact fun x hx => h x (standsIn_of_mem_allExprs he hx)

end Expr

/-! ## Statements that are written out -/

namespace Stmt

/-- The statements a branch of an `if` or the body of a loop consists of: those of a block, or the one statement. -/
def branchStmts : Stmt → List Stmt
  | .block _ ss => ss
  | s => [s]

/-- The statement is written out when `body` is, and not inside a placeholder. -/
inductive WrittenIn (body : List Stmt) : Stmt → Prop
  | own {s} (hs : s ∈ body) : WrittenIn body s
  | thenBranch {span cond t e s} (h : WrittenIn body (.if_ span cond t e)) (hs : s ∈ t.branchStmts) : WrittenIn body s
  | elseBranch {span cond t e s} (h : WrittenIn body (.if_ span cond t (some e))) (hs : s ∈ e.branchStmts) :
    WrittenIn body s
  | loopBody {span cond t s} (h : WrittenIn body (.while_ span cond t)) (hs : s ∈ t.branchStmts) : WrittenIn body s

/-- What is written out in statements that are written out themselves is written out. -/
theorem WrittenIn.trans {body inner : List Stmt} {s : Stmt} (hinner : ∀ t ∈ inner, WrittenIn body t)
    (h : WrittenIn inner s) : WrittenIn body s := by
  induction h with
  | own hs => exact hinner _ hs
  | thenBranch _ hs ih => exact .thenBranch ih hs
  | elseBranch _ hs ih => exact .elseBranch ih hs
  | loopBody _ hs ih => exact .loopBody ih hs

/-- The statements of a branch are no larger than the branch. -/
theorem sizeOf_le_of_mem_branchStmts {s t : Stmt} (ht : t ∈ s.branchStmts) : sizeOf t ≤ sizeOf s := by
  cases s with
  | block span ss => exact Nat.le_of_lt (sizeOf_lt_of_mem_stmts (s := .block span ss) ht)
  | _ =>
    cases List.mem_singleton.mp ht
    exact Nat.le_refl _

/-- The expressions of a branch are those of its statements. -/
theorem allExprs_branchStmts (s : Stmt) : s.branchStmts.flatMap allExprs = s.allExprs := by
  cases s with
  | block span ss => exact (allExprsList_eq_flatMap ss).symm
  | _ => exact List.flatMap_singleton ..

end Stmt

/-- The annotation stands for a Solidity type. -/
def TypeExpr.Accepted (t : TypeExpr) : Prop := ∃ text, t.solidity = .ok text

/-- The variable has an initializer, and a type that can be written if it has one. -/
def Declarator.Declared (d : Declarator) : Prop := d.init ≠ none ∧ ∀ t ∈ d.type, t.Accepted

/-- The statement declares its variables properly, if it declares any. -/
def Stmt.Declares : Stmt → Prop
  | .var _ _ decls => ∀ d ∈ decls, d.Declared
  | _ => True

/-- There is no failure just if there is a value. -/
theorem errorOf_eq_none_iff {ε α : Type} {r : Except ε α} : errorOf r = none ↔ ∃ a, r = .ok a := by
  cases r <;> simp [errorOf]

/-- An annotation does not fail just if it stands for a Solidity type. -/
theorem errorOf_solidity_eq_none_iff {t : TypeExpr} : errorOf t.solidity = none ↔ t.Accepted := errorOf_eq_none_iff

/-- The type of a local variable does not fail just if there is none or it can be written. -/
theorem errorOf_localType_eq_none_iff {type : Option TypeExpr} :
    errorOf (Writing.localType type) = none ↔ ∀ t ∈ type, t.Accepted := by
  cases type with
  | none => simp [Writing.localType, errorOf]
  | some t => simp [Writing.localType, errorOf_solidity_eq_none_iff]

section Statements

variable {b : Bindings}

/-- A variable does not fail just if it is declared properly and its value has no unknown access. -/
theorem Declarator.failure?_eq_none_iff {d : Declarator} :
    d.failure? b = none ↔ d.Declared ∧ ∀ e ∈ d.init, e.firstUnknown? b = none := by
  unfold failure? Declared
  cases d.init with
  | none => simp
  | some init => simp [errorOf_localType_eq_none_iff]

namespace Stmt

/-- A branch fails as the statements it consists of do. -/
theorem failure?_branch (s : Stmt) : s.failure? b .branch = failures? b s.branchStmts := by
  cases s <;> simp [failure?, failures?, branchStmts]

/-- Statements do not fail just if none of them does. -/
theorem failures?_eq_none_iff {ss : List Stmt} : failures? b ss = none ↔ ∀ s ∈ ss, s.failure? b .lastLine = none := by
  induction ss with
  | nil => simp [failures?]
  | cons s ss ih => rw [failures?, Option.or_eq_none_iff, ih, List.forall_mem_cons]

/-- A branch does not fail just if none of its statements does. -/
theorem failure?_branch_eq_none_iff {s : Stmt} :
    s.failure? b .branch = none ↔ ∀ t ∈ s.branchStmts, t.failure? b .lastLine = none := by
  rw [failure?_branch, failures?_eq_none_iff]

/-- If statements can be written, so can each statement that is written out in them. -/
theorem WrittenIn.failure?_eq_none {body : List Stmt} {s : Stmt} (hs : WrittenIn body s) (h : failures? b body = none) :
    s.failure? b .lastLine = none := by
  induction hs with
  | own hs => exact failures?_eq_none_iff.mp h _ hs
  | thenBranch _ hs ih =>
    rw [failure?, Option.or_eq_none_iff, Option.or_eq_none_iff] at ih
    exact failure?_branch_eq_none_iff.mp ih.2.1 _ hs
  | elseBranch _ hs ih =>
    rw [failure?, Option.or_eq_none_iff, Option.or_eq_none_iff] at ih
    exact failure?_branch_eq_none_iff.mp ih.2.2 _ hs
  | loopBody _ hs ih =>
    rw [failure?, Option.or_eq_none_iff] at ih
    exact failure?_branch_eq_none_iff.mp ih.2 _ hs

/-- A statement that does not fail declares its variables properly. -/
theorem declares_of_failure? {s : Stmt} (h : s.failure? b .lastLine = none) : s.Declares := by
  cases s with
  | var span kind decls =>
    rw [failure?, List.findSome?_eq_none_iff] at h
    exact fun d hd => (Declarator.failure?_eq_none_iff.mp (h d hd)).1
  | _ => trivial

/-- A statement can be written if the statements written out in it declare their variables properly and no expression in
it has an unknown access. -/
theorem failure?_eq_none_of_declares (s : Stmt) (hdeclares : ∀ t, WrittenIn [s] t → t.Declares)
    (hknown : ∀ e ∈ s.allExprs, e.firstUnknown? b = none) : s.failure? b .lastLine = none := by
  have hself : WrittenIn [s] s := .own List.mem_cons_self
  -- A branch that is written out, and smaller, is a list of statements to which the same applies.
  have hbranch : ∀ {branch : Stmt}, sizeOf branch < sizeOf s → (∀ t ∈ branch.branchStmts, WrittenIn [s] t) →
      (∀ e ∈ branch.allExprs, e.firstUnknown? b = none) → branch.failure? b .branch = none := by
    intro branch hsize hwritten hexprs
    rw [failure?_branch_eq_none_iff]
    intro t ht
    have hlt : sizeOf t < sizeOf s := Nat.lt_of_le_of_lt (sizeOf_le_of_mem_branchStmts ht) hsize
    refine failure?_eq_none_of_declares t (fun u hu => hdeclares u (hu.trans ?_)) fun e he => hexprs e ?_
    · exact List.forall_mem_singleton.mpr (hwritten t ht)
    · rw [← allExprs_branchStmts]
      exact List.mem_flatMap.mpr ⟨t, ht, he⟩
  cases s with
  | return_ span value =>
    cases value with
    | none => rfl
    | some e => exact hknown e List.mem_cons_self
  | if_ span cond thenBranch elseBranch =>
    rw [allExprs, List.forall_mem_cons, List.forall_mem_append] at hknown
    rw [failure?, Option.or_eq_none_iff, Option.or_eq_none_iff]
    refine ⟨hknown.1, hbranch ?_ (fun t ht => hself.thenBranch ht) hknown.2.1, ?_⟩
    · exact sizeOf_lt_of_mem_stmts List.mem_cons_self
    · cases elseBranch with
      | none => rfl
      | some branch =>
        refine hbranch ?_ (fun t ht => hself.elseBranch ht) hknown.2.2
        exact sizeOf_lt_of_mem_stmts (List.mem_cons_of_mem _ List.mem_cons_self)
  | var span kind decls =>
    rw [failure?, List.findSome?_eq_none_iff]
    intro d hd
    rw [Declarator.failure?_eq_none_iff]
    exact ⟨hdeclares _ hself d hd, fun e he => hknown e (List.mem_filterMap.mpr ⟨d, hd, he⟩)⟩
  | expr span e => exact hknown e List.mem_cons_self
  | while_ span cond body =>
    rw [allExprs, List.forall_mem_cons] at hknown
    rw [failure?, Option.or_eq_none_iff]
    refine ⟨hknown.1, hbranch ?_ (fun t ht => hself.loopBody ht) hknown.2⟩
    exact sizeOf_lt_of_mem_stmts List.mem_cons_self
  | block | doWhile | for_ | forEach | break_ | continue_ | throw | empty =>
    exact List.findSome?_eq_none_iff.mpr hknown
termination_by sizeOf s

end Stmt

/-- What the statements of a body need: proper declarations where they are written out, and nothing unknown anywhere. -/
structure BodyRenderable (b : Bindings) (body : List Stmt) : Prop where
  declared : ∀ span kind decls, Stmt.WrittenIn body (.var span kind decls) → ∀ d ∈ decls, d.Declared
  known : ∀ s ∈ body, ∀ x : Expr, x.StandsIn s → ¬ x.IsUnknown b

/-- The statements of a body do not fail just if they have what they need. -/
theorem failures?_eq_none_iff_renderable {body : List Stmt} :
    Stmt.failures? b body = none ↔ BodyRenderable b body := by
  constructor
  · intro h
    constructor
    · intro span kind decls hwritten
      exact Stmt.declares_of_failure? (hwritten.failure?_eq_none h)
    · intro s hs
      rw [← Expr.firstUnknown?_eq_none_iff_standsIn]
      exact Stmt.firstUnknown?_of_failure? _ s (Stmt.failures?_eq_none_iff.mp h s hs)
  · rintro ⟨hdeclared, hknown⟩
    have hdeclares : ∀ t, Stmt.WrittenIn body t → t.Declares := by
      intro t ht
      cases t with
      | var span kind decls => exact hdeclared span kind decls ht
      | _ => trivial
    rw [Stmt.failures?_eq_none_iff]
    intro s hs
    refine s.failure?_eq_none_of_declares (fun t ht => hdeclares t (ht.trans ?_)) ?_
    · exact List.forall_mem_singleton.mpr (.own hs)
    · exact Expr.firstUnknown?_eq_none_iff_standsIn.mpr (hknown s hs)

end Statements

/-! ## Members and classes -/

/-- The parameter has a type that can be written. -/
def Param.Typed (p : Param) : Prop := ∃ t, p.type = some t ∧ t.Accepted

/-- What a member needs: nothing, if it is written as a placeholder. The type of a result does not matter where a
constructor is written, nor if there is none. -/
def MemberShape.Renderable (b : Bindings) : MemberShape → Prop
  | .property _ type init => (∃ t, type = some t ∧ t.Accepted) ∧ ∀ e ∈ init, ∀ x : Expr, x.OccursIn e → ¬ x.IsUnknown b
  | .constructor params body => (∀ p ∈ params, p.Typed) ∧ ∀ block ∈ body, BodyRenderable b block.stmts
  | .method name params returns body =>
    (∀ p ∈ params, p.Typed) ∧
      (bareName name.name ≠ constructorName → ∀ t ∈ returns, t.isVoid = false → t.Accepted) ∧
      ∀ block ∈ body, BodyRenderable b block.stmts
  | .accessor .. | .indexSignature .. => True

section Members

variable {b : Bindings}

/-- The failure of two results is that of the first, or else that of the second. -/
theorem errorOf_bind {ε α β : Type} {r : Except ε α} {k : α → Except ε β} {f : Option ε} (hk : ∀ a, errorOf (k a) = f) :
    errorOf (r >>= k) = (errorOf r).or f := by
  cases r with
  | error err => rfl
  | ok a => exact hk a

/-- What is made of a value does not fail. -/
theorem errorOf_bind_pure {ε α β : Type} (r : Except ε α) (g : α → β) :
    errorOf (r >>= fun a => pure (g a)) = errorOf r := by
  cases r <;> rfl

/-- Several results fail with the first failure among them. -/
theorem errorOf_mapM {ε α β : Type} (f : α → Except ε β) (as : List α) :
    errorOf (as.mapM f) = as.findSome? fun a => errorOf (f a) := by
  induction as with
  | nil => rfl
  | cons a as ih =>
    have hrest : ∀ text, errorOf (as.mapM f >>= fun texts => pure (text :: texts)) = as.findSome? fun a => errorOf (f a) := by
      intro text
      rw [errorOf_bind_pure, ih]
    rw [List.mapM_cons, errorOf_bind hrest, findSome?_cons_eq_or]

/-- A parameter does not fail just if it has a type that can be written. -/
theorem Param.errorOf_solidity_eq_none_iff {p : Param} : errorOf p.solidity = none ↔ p.Typed := by
  unfold Param.solidity Typed
  cases p.type with
  | none => simp [errorOf]
  | some t =>
    dsimp only
    rw [errorOf_bind_pure]
    simp [ContractCompiler.errorOf_solidity_eq_none_iff]

/-- The type of a result does not fail just if it is `void`, missing, or can be written. -/
theorem errorOf_returnsClause_eq_none_iff {returns : Option TypeExpr} :
    errorOf (returnsClause returns) = none ↔ ∀ t ∈ returns, t.isVoid = false → t.Accepted := by
  cases returns with
  | none => simp [returnsClause, errorOf]
  | some t =>
    rw [returnsClause]
    cases hvoid : t.isVoid with
    | true => simp [errorOf, hvoid]
    | false =>
      rw [if_neg Bool.false_ne_true, errorOf_bind_pure]
      simp [errorOf_solidity_eq_none_iff, hvoid]

/-- The first line of a callable fails as its parameters do, or else as the type of its result, unless it is written as a
constructor. -/
theorem errorOf_signature (name : String) (params : List Param) (returns : Option TypeExpr) :
    errorOf (signature name params returns) =
      (params.findSome? fun p => errorOf p.solidity).or
        (if bareName name = constructorName then none else errorOf (returnsClause returns)) := by
  unfold signature
  rw [← errorOf_mapM]
  refine errorOf_bind fun texts => ?_
  by_cases hname : bareName name = constructorName
  · simp only [hname, ↓reduceIte]
    rfl
  · simp only [hname, ↓reduceIte, errorOf_bind_pure]

/-- The first line of a callable does not fail just if its parameters and, where it counts, its result do not. -/
theorem errorOf_signature_eq_none_iff {name : String} {params : List Param} {returns : Option TypeExpr} :
    errorOf (signature name params returns) = none ↔
      (∀ p ∈ params, p.Typed) ∧
        (bareName name ≠ constructorName → ∀ t ∈ returns, t.isVoid = false → t.Accepted) := by
  rw [errorOf_signature, Option.or_eq_none_iff, List.findSome?_eq_none_iff]
  simp only [Param.errorOf_solidity_eq_none_iff]
  refine and_congr_right fun _ => ?_
  by_cases hname : bareName name = constructorName
  · simp [hname]
  · simp [hname, errorOf_returnsClause_eq_none_iff]

/-- A callable does not fail just if its first line and its body do not. -/
theorem callableFailure?_eq_none_iff {name : String} {params : List Param} {returns : Option TypeExpr}
    {body : Option Block} :
    callableFailure? b name params returns body = none ↔
      errorOf (signature name params returns) = none ∧ ∀ block ∈ body, BodyRenderable b block.stmts := by
  rw [callableFailure?, Option.or_eq_none_iff]
  refine and_congr_right fun _ => ?_
  cases body with
  | none => simp
  | some block => simp [failures?_eq_none_iff_renderable]

/-- A member does not fail just if it has what it needs. -/
theorem Member.failure?_eq_none_iff {m : Member} : m.failure? b = none ↔ m.shape.Renderable b := by
  unfold failure?
  cases m.shape with
  | property name type init =>
    cases type with
    | none => simp [MemberShape.Renderable]
    | some t =>
      have hinit : init.bind (Expr.firstUnknown? b) = none ↔
          ∀ e ∈ init, ∀ x : Expr, x.OccursIn e → ¬ x.IsUnknown b := by
        cases init with
        | none => simp
        | some e => simp [Expr.firstUnknown?_eq_none_iff_occursIn]
      rw [Option.or_eq_none_iff, errorOf_solidity_eq_none_iff, hinit, MemberShape.Renderable]
      simp
  | constructor params body =>
    have hname : bareName constructorName = constructorName := by decide
    rw [callableFailure?_eq_none_iff, errorOf_signature_eq_none_iff, MemberShape.Renderable]
    simp [hname]
  | method name params returns body =>
    rw [callableFailure?_eq_none_iff, errorOf_signature_eq_none_iff, MemberShape.Renderable, and_assoc]
  | accessor | indexSignature => simp [MemberShape.Renderable]

/-- A class of the class table of a parsed file is written exactly if each of its members can be. -/
theorem render_succeeds_iff (source receiver indent : String) {c : ClassDecl}
    (hc : c ∈ (ClassTable.ofFile (parse source).file).classes) :
    let b := (parse source).file.bindings receiver
    (∃ contract, c.render indent b = .ok contract) ↔ ∀ m ∈ c.members, m.shape.Renderable b := by
  intro b
  rw [← errorOf_eq_none_iff, c.errorOf_render indent (onNames_of_mem_checked receiver hc), ClassDecl.failure?,
    List.findSome?_eq_none_iff]
  simp only [Member.failure?_eq_none_iff, b]

end Members

/-- A method written as a constructor, with the type of a result that cannot be written, and a variable without an
initializer in a block that is a statement. -/
def nestedSource : String :=
  "class A \x7b #constructor(a: T): any[] \x7b if (a) \x7b let x = a; \x7d \x7b let y; \x7d \x7d \x7d"

/-- The class in `nestedSource`. -/
def nestedClass : ClassDecl :=
  let param : Param := ⟨⟨"a", ⟨23, 24⟩⟩, some (.named ⟨26, 27⟩ [⟨"T", ⟨26, 27⟩⟩] []), false, none, [], ⟨23, 27⟩⟩
  let x : Declarator := ⟨⟨"x", ⟨51, 52⟩⟩, none, some (.ident ⟨"a", ⟨55, 56⟩⟩), ⟨51, 56⟩⟩
  let y : Declarator := ⟨⟨"y", ⟨66, 67⟩⟩, none, none, ⟨66, 67⟩⟩
  ⟨⟨"A", ⟨6, 7⟩⟩, none, [], false,
    [⟨[], [], .method ⟨"#constructor", ⟨10, 22⟩⟩ [param] (some (.array ⟨30, 35⟩ (.keyword ⟨30, 33⟩ .any)))
        (some ⟨[.if_ ⟨38, 59⟩ (.ident ⟨"a", ⟨42, 43⟩⟩) (.block ⟨45, 59⟩ [.var ⟨47, 57⟩ .let_ [x]]) none,
          .block ⟨60, 70⟩ [.var ⟨62, 68⟩ .let_ [y]]], ⟨36, 72⟩⟩), ⟨10, 72⟩⟩], ⟨0, 74⟩⟩

/-- The class in `nestedSource` has what it needs and is written. -/
theorem nestedClass_written :
    let file := (parse nestedSource).file
    nestedClass ∈ (ClassTable.ofFile file).classes ∧
      (∃ contract, nestedClass.render "  " (file.bindings "ETH") = .ok contract) ∧
      ∀ m ∈ nestedClass.members, m.shape.Renderable (file.bindings "ETH") := by
  have hread : (ClassTable.ofFile (parse nestedSource).file).classes = [nestedClass] ∧
      ((parse nestedSource).file.bindings "ETH").entries = [] := by
    decide +kernel
  obtain ⟨hclasses, hentries⟩ := hread
  have hbindings : (parse nestedSource).file.bindings "ETH" = ⟨[]⟩ := congrArg Bindings.mk hentries
  have hmem : nestedClass ∈ (ClassTable.ofFile (parse nestedSource).file).classes :=
    hclasses ▸ List.mem_singleton.mpr rfl
  have hwritten : ∃ contract, nestedClass.render "  " ((parse nestedSource).file.bindings "ETH") = .ok contract := by
    rw [hbindings]
    exact ⟨_, rfl⟩
  exact ⟨hmem, hwritten, (render_succeeds_iff nestedSource "ETH" "  " hmem).mp hwritten⟩

end ContractCompiler
