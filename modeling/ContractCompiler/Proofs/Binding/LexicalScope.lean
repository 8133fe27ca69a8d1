import ContractCompiler.Binding.Bindings
import ContractCompiler.Proofs.Reading.Held

/-!
# Lexical scope

Where an expression of a class member stands, and which names the scopes around it declare. `Stmt.openings` says what
each form of statement declares for each statement inside it, and `Stmt.At` follows the openings down to an expression.
The accesses found in a statement or a member are those at some place where no scope around hides the receiver.
-/

namespace ContractCompiler

namespace Stmt

/-- The statements directly inside a statement, each with the names that are declared for it and not around. A variable
statement in place of a block declares its names for itself; a block declares the variables of all its statements for
all of them; the variables of a `for` hold in its initializer and its body; the variable of a `for` over a collection
holds in its body. -/
def openings : Stmt → List (List String × Stmt)
  | .if_ _ _ thenBranch elseBranch =>
    (thenBranch.declaredNames, thenBranch) :: elseBranch.toList.map fun s => (s.declaredNames, s)
  | .while_ _ _ body | .doWhile _ body _ => [(body.declaredNames, body)]
  | .for_ _ init _ _ body =>
    let counters := init.toList.flatMap declaredNames
    init.toList.map (fun s => (counters, s)) ++ [(body.declaredNames ++ counters, body)]
  | .forEach _ _ binding _ _ body => [(body.declaredNames ++ [binding.name], body)]
  | .block _ stmts => stmts.map fun s => (stmts.flatMap declaredNames, s)
  | .var .. | .expr .. | .return_ .. | .break_ _ | .continue_ _ | .throw .. | .empty _ => []

/-- The expressions directly inside a statement, each with the names that are declared for it and not around: the
variables of a `for` hold in its test and its update. -/
def shown : Stmt → List (List String × Expr)
  | .for_ _ init test update _ => (test.toList ++ update.toList).map fun e => (init.toList.flatMap declaredNames, e)
  | s => s.exprs.map fun e => ([], e)

/-- The expression stands in the statement, at a place for which the scopes inside the statement declare `names`. -/
inductive At : Stmt → List String → Expr → Prop where
  | here {s : Stmt} {names : List String} {e : Expr} : (names, e) ∈ s.shown → At s names e
  | inside {s t : Stmt} {names more : List String} {e : Expr} :
      (names, t) ∈ s.openings → At t more e → At s (more ++ names) e

/-- Without the names, the shown expressions are those of the statement. -/
theorem shown_snd (s : Stmt) : s.shown.map Prod.snd = s.exprs := by
  cases s <;> simp [shown, exprs, Function.comp_def]

/-- Without the names, the openings are the statements in the statement. -/
theorem openings_snd (s : Stmt) : s.openings.map Prod.snd = s.stmts := by
  cases s <;> simp [openings, stmts, Function.comp_def]

/-- A statement inside another one is smaller. -/
theorem sizeOf_lt_of_mem_stmts {s t : Stmt} (ht : t ∈ s.stmts) : sizeOf t < sizeOf s := by
  cases s with
  | block span ss =>
    have := List.sizeOf_lt_of_mem (show t ∈ ss from ht)
    simp only [Stmt.block.sizeOf_spec]
    omega
  | if_ span cond thenBranch elseBranch =>
    simp only [stmts, List.mem_cons, Option.mem_toList] at ht
    rcases ht with rfl | ht
    · simp only [Stmt.if_.sizeOf_spec]
      omega
    · cases ht
      simp only [Stmt.if_.sizeOf_spec, Option.some.sizeOf_spec]
      omega
  | for_ span init test update body =>
    simp only [stmts, List.mem_append, List.mem_singleton, Option.mem_toList] at ht
    rcases ht with ht | rfl
    · cases ht
      simp only [Stmt.for_.sizeOf_spec, Option.some.sizeOf_spec]
      omega
    · simp only [Stmt.for_.sizeOf_spec]
      omega
  | while_ | doWhile | forEach =>
    simp only [stmts, List.mem_singleton] at ht
    subst ht
    simp only [Stmt.while_.sizeOf_spec, Stmt.doWhile.sizeOf_spec, Stmt.forEach.sizeOf_spec]
    omega
  | var | expr | return_ | break_ | continue_ | throw | empty => simp [stmts] at ht

theorem sizeOf_lt_of_mem_openings {s t : Stmt} {names : List String} (h : (names, t) ∈ s.openings) :
    sizeOf t < sizeOf s := by
  refine sizeOf_lt_of_mem_stmts ?_
  rw [← openings_snd]
  exact List.mem_map_of_mem h

/-- What holds of a statement whenever it holds of the statements directly inside it holds of every statement. -/
theorem openings_induction {P : Stmt → Prop} (h : ∀ s, (∀ names t, (names, t) ∈ s.openings → P t) → P s) (s : Stmt) :
    P s :=
  h s fun _ t ht =>
    have := sizeOf_lt_of_mem_openings ht
    openings_induction h t
termination_by sizeOf s

end Stmt

/-! ## Accesses in statements -/

namespace Scope

/-- Declaring nothing changes no scope. -/
theorem declare_nil (scope : Scope) : scope.declare [] = scope := rfl

/-- Declaring twice is declaring all the names at once. -/
theorem declare_declare (scope : Scope) (names more : List String) :
    (scope.declare names).declare more = scope.declare (more ++ names) := by
  simp [declare]

/-- The accesses in several statements are those in one of them. -/
theorem mem_listAccesses {scope : Scope} {a : Access} {ss : List Stmt} :
    a ∈ scope.listAccesses ss ↔ ∃ s ∈ ss, a ∈ scope.stmtAccesses s := by
  induction ss with
  | nil => simp [listAccesses]
  | cons s ss ih => simp [listAccesses, ih]

/-- The accesses of a statement are those of the expressions directly inside it and those of the statements directly
inside it, each where its names are declared. -/
theorem mem_stmtAccesses_iff {scope : Scope} {a : Access} {s : Stmt} :
    a ∈ scope.stmtAccesses s ↔
      a ∈ s.shown.flatMap (fun p => (scope.declare p.1).exprAccesses p.2) ∨
      a ∈ s.openings.flatMap fun p => (scope.declare p.1).stmtAccesses p.2 := by
  cases s with
  | var | expr | return_ | throw | break_ | continue_ | empty =>
    simp [stmtAccesses, optionAccesses, Stmt.shown, Stmt.openings, Stmt.exprs, List.flatMap_map, declare_nil]
  | if_ span cond thenBranch elseBranch =>
    cases elseBranch <;>
      simp [stmtAccesses, branchAccesses, Stmt.shown, Stmt.openings, Stmt.exprs, declare_nil]
  | while_ | doWhile => simp [stmtAccesses, Stmt.shown, Stmt.openings, Stmt.exprs, declare_nil]
  | for_ span init test update body =>
    cases init with
    | none =>
      simp [stmtAccesses, headerAccesses, optionAccesses, Stmt.shown, Stmt.openings, List.flatMap_map, declare_nil,
        or_assoc]
    | some init =>
      simp only [stmtAccesses, headerAccesses, optionAccesses, Stmt.shown, Stmt.openings, List.flatMap_map,
        declare_declare, List.flatMap_append, List.mem_append, List.map_append, Option.toList_some, List.flatMap_cons,
        List.flatMap_nil, List.append_nil, List.map_cons, List.map_nil]
      -- the initializer comes before the test and the update here, and after them in the statement
      grind
  | forEach => simp [stmtAccesses, Stmt.shown, Stmt.openings, Stmt.exprs, declare_nil, declare_declare]
  | block span stmts =>
    simp [stmtAccesses, mem_listAccesses, Stmt.shown, Stmt.openings, Stmt.exprs, List.flatMap_map]

/-- The accesses of a statement are those of the expressions in it, each where the scopes around it are declared. -/
theorem mem_stmtAccesses_iff_at {scope : Scope} {a : Access} {s : Stmt} :
    a ∈ scope.stmtAccesses s ↔ ∃ names e, s.At names e ∧ a ∈ (scope.declare names).exprAccesses e := by
  induction s using Stmt.openings_induction generalizing scope with
  | h s ih =>
    rw [mem_stmtAccesses_iff, List.mem_flatMap, List.mem_flatMap]
    constructor
    · rintro (⟨⟨names, e⟩, he, ha⟩ | ⟨⟨names, t⟩, ht, ha⟩)
      · exact ⟨names, e, .here he, ha⟩
      · obtain ⟨more, e, he, ha⟩ := (ih names t ht).mp ha
        rw [declare_declare] at ha
        exact ⟨more ++ names, e, .inside ht he, ha⟩
    · rintro ⟨names, e, he, ha⟩
      cases he with
      | here he => exact .inl ⟨(names, e), he, ha⟩
      | @inside _ t names more _ ht he =>
        rw [← declare_declare] at ha
        exact .inr ⟨(names, t), ht, (ih names t ht).mpr ⟨more, e, he, ha⟩⟩

/-- The accesses in a block are those at its places, where the variables of the block are declared too. -/
theorem mem_blockAccesses_iff {scope : Scope} {a : Access} {b : Block} :
    a ∈ scope.blockAccesses b ↔ ∃ s ∈ b.stmts, ∃ names e, s.At names e ∧
      a ∈ (scope.declare (names ++ b.stmts.flatMap Stmt.declaredNames)).exprAccesses e := by
  simp only [blockAccesses, mem_listAccesses, mem_stmtAccesses_iff_at, declare_declare]

end Scope

/-! ## Accesses in members -/

/-- The parameters and the body of a constructor, a method or an accessor. -/
def MemberShape.callable? : MemberShape → Option (List Param × Option Block)
  | .constructor params body | .method _ params _ body | .accessor _ _ params _ body => some (params, body)
  | .property .. | .indexSignature .. => none

/-- The expression stands in the member, at a place for which the scopes inside the member declare `names`: in the
initializer of a property or the default of a parameter, where nothing is declared, or in a body, where the parameters
are, and the variables of the body. -/
inductive Member.At (m : Member) : List String → Expr → Prop where
  | init {name : Ident} {type : Option TypeExpr} {e : Expr} : m.shape = .property name type (some e) → m.At [] e
  | default {params : List Param} {body : Option Block} {p : Param} {e : Expr} :
      m.shape.callable? = some (params, body) → p ∈ params → p.default = some e → m.At [] e
  | body {params : List Param} {body : Block} {s : Stmt} {names : List String} {e : Expr} :
      m.shape.callable? = some (params, some body) → s ∈ body.stmts → s.At names e →
        m.At (names ++ body.stmts.flatMap Stmt.declaredNames ++ params.map fun p => p.name.name) e

namespace Scope

variable {scope : Scope} {a : Access} {m : Member} {params : List Param} {body : Option Block}

/-- The accesses in a callable member are those in its parameters and its body. -/
theorem memberAccesses_of_callable (h : m.shape.callable? = some (params, body)) :
    scope.memberAccesses m = scope.callableAccesses params body := by
  unfold memberAccesses
  cases hm : m.shape <;> rw [hm] at h <;> cases h <;> rfl

/-- The accesses in a callable are those in the defaults of its parameters, where nothing is declared, and those at the places
of its body. -/
theorem mem_callableAccesses_iff :
    a ∈ scope.callableAccesses params body ↔
      (∃ p ∈ params, ∃ e, p.default = some e ∧ a ∈ scope.exprAccesses e) ∨
      ∃ b, body = some b ∧ ∃ s ∈ b.stmts, ∃ names e, s.At names e ∧
        a ∈ (scope.declare
          (names ++ b.stmts.flatMap Stmt.declaredNames ++ params.map fun p => p.name.name)).exprAccesses e := by
  simp only [callableAccesses, List.mem_append, List.mem_flatMap, List.mem_filterMap, Option.mem_toList,
    mem_blockAccesses_iff, declare_declare]
  refine or_congr ⟨?_, ?_⟩ Iff.rfl
  · rintro ⟨e, ⟨p, hp, he⟩, ha⟩
    exact ⟨p, hp, e, he, ha⟩
  · rintro ⟨p, hp, e, he, ha⟩
    exact ⟨e, ⟨p, hp, he⟩, ha⟩

/-- The accesses of a member are those of the expressions in it, each where the scopes around it are declared. -/
theorem mem_memberAccesses_iff :
    a ∈ scope.memberAccesses m ↔ ∃ names e, m.At names e ∧ a ∈ (scope.declare names).exprAccesses e := by
  constructor
  · intro ha
    cases hcall : m.shape.callable? with
    | some call =>
      obtain ⟨params, body⟩ := call
      rw [memberAccesses_of_callable hcall, mem_callableAccesses_iff] at ha
      rcases ha with ⟨p, hp, e, he, ha⟩ | ⟨b, rfl, s, hs, names, e, he, ha⟩
      · exact ⟨[], e, .default hcall hp he, ha⟩
      · exact ⟨_, e, .body hcall hs he, ha⟩
    | none =>
      unfold memberAccesses at ha
      cases hm : m.shape with
      | property name type init =>
        rw [hm] at ha
        obtain ⟨e, he, ha⟩ := List.mem_flatMap.mp ha
        rw [Option.mem_toList.mp he] at hm
        exact ⟨[], e, .init hm, ha⟩
      | indexSignature =>
        rw [hm] at ha
        cases ha
      | constructor | method | accessor =>
        rw [hm] at hcall
        cases hcall
  · rintro ⟨names, e, he, ha⟩
    cases he with
    | init hm =>
      unfold memberAccesses
      rw [hm]
      simpa [optionAccesses, declare_nil] using ha
    | default hcall hp he =>
      rw [memberAccesses_of_callable hcall, mem_callableAccesses_iff]
      exact .inl ⟨_, hp, e, he, ha⟩
    | body hcall hs he =>
      rw [memberAccesses_of_callable hcall, mem_callableAccesses_iff]
      exact .inr ⟨_, rfl, _, hs, _, e, he, ha⟩

end Scope

/-! ## All places -/

/-- Places in a statement or a body inside which `names` are declared too. -/
def under (names : List String) (places : List (List String × Expr)) : List (List String × Expr) :=
  places.map fun p => (p.1 ++ names, p.2)

/-- Names that are declared around places do not change what stands there. -/
theorem under_snd (names : List String) (places : List (List String × Expr)) :
    (under names places).map Prod.snd = places.map Prod.snd := by
  simp [under, Function.comp_def]

/-- At a place under other names these are declared as well. -/
theorem mem_under {names ns : List String} {places : List (List String × Expr)} {e : Expr} :
    (ns, e) ∈ under names places ↔ ∃ more, (more, e) ∈ places ∧ ns = more ++ names := by
  simp [under, eq_comm]

namespace Stmt

/-- The expressions in a statement, each with the names that scopes inside the statement declare for it. -/
def places (s : Stmt) : List (List String × Expr) :=
  s.shown ++ s.openings.attach.flatMap fun o => under o.1.1 o.1.2.places
termination_by sizeOf s
decreasing_by exact sizeOf_lt_of_mem_openings o.2

/-- The places of a statement are the shown ones and those in its openings. -/
theorem places_eq (s : Stmt) : s.places = s.shown ++ s.openings.flatMap fun o => under o.1 o.2.places := by
  rw [places, List.flatMap_subtype (g := fun o => under o.1 o.2.places) (fun _ _ => rfl), List.unattach_attach]

/-- The places of a statement are where expressions stand in it. -/
theorem mem_places {s : Stmt} {names : List String} {e : Expr} : (names, e) ∈ s.places ↔ s.At names e := by
  induction s using openings_induction generalizing names with
  | h s ih =>
    rw [places_eq, List.mem_append, List.mem_flatMap]
    constructor
    · rintro (he | ⟨⟨ns, t⟩, ht, he⟩)
      · exact .here he
      · obtain ⟨more, hmore, rfl⟩ := mem_under.mp he
        exact .inside ht ((ih ns t ht).mp hmore)
    · rintro (he | ⟨ht, he⟩)
      · exact .inl he
      · exact .inr ⟨_, ht, mem_under.mpr ⟨_, (ih _ _ ht).mpr he, rfl⟩⟩

/-- Every expression of a statement has one place. -/
theorem places_snd (s : Stmt) : s.places.map Prod.snd = s.allExprs := by
  induction s using openings_induction with
  | h s ih =>
    rw [places_eq, allExprs_eq, List.map_append, shown_snd, ← openings_snd, List.map_flatMap, List.flatMap_map]
    congr 1
    refine List.flatMap_congr fun o ho => ?_
    rw [under_snd]
    exact ih o.1 o.2 ho

end Stmt

namespace Member

/-- The expressions in the defaults and the body of a callable, each with the names that are declared for it. -/
def callablePlaces (params : List Param) (body : Option Block) : List (List String × Expr) :=
  (params.filterMap Param.default).map (fun e => ([], e)) ++ body.toList.flatMap fun b =>
    b.stmts.flatMap fun s => under (b.stmts.flatMap Stmt.declaredNames ++ params.map fun p => p.name.name) s.places

/-- The expressions in a member, decorators apart, each with the names that scopes inside the member declare for it. -/
def places (m : Member) : List (List String × Expr) :=
  match m.shape with
  | .property _ _ init => init.toList.map fun e => ([], e)
  | .constructor params body | .method _ params _ body | .accessor _ _ params _ body => callablePlaces params body
  | .indexSignature .. => []

/-- The places of a callable are the defaults of its parameters and the places of its body. -/
theorem mem_callablePlaces {params : List Param} {body : Option Block} {names : List String} {e : Expr} :
    (names, e) ∈ callablePlaces params body ↔
      (∃ p ∈ params, p.default = some e ∧ names = []) ∨
      ∃ b, body = some b ∧ ∃ s ∈ b.stmts, ∃ more, s.At more e ∧
        names = more ++ b.stmts.flatMap Stmt.declaredNames ++ params.map fun p => p.name.name := by
  simp only [callablePlaces, List.mem_append, List.mem_map, List.mem_filterMap, Prod.mk.injEq, List.mem_flatMap,
    Option.mem_toList, mem_under, Stmt.mem_places, List.append_assoc]
  refine or_congr ⟨?_, ?_⟩ Iff.rfl
  · rintro ⟨_, ⟨p, hp, he⟩, rfl, rfl⟩
    exact ⟨p, hp, he, rfl⟩
  · rintro ⟨p, hp, he, rfl⟩
    exact ⟨e, ⟨p, hp, he⟩, rfl, rfl⟩

/-- The places of a callable member are those of its parameters and its body. -/
theorem places_of_callable {m : Member} {params : List Param} {body : Option Block}
    (h : m.shape.callable? = some (params, body)) : m.places = callablePlaces params body := by
  unfold places
  cases hm : m.shape <;> rw [hm] at h <;> cases h <;> rfl

/-- The places of a member are where expressions stand in it. -/
theorem mem_places {m : Member} {names : List String} {e : Expr} : (names, e) ∈ m.places ↔ m.At names e := by
  constructor
  · intro he
    cases hcall : m.shape.callable? with
    | some call =>
      rw [places_of_callable hcall, mem_callablePlaces] at he
      rcases he with ⟨p, hp, he, rfl⟩ | ⟨b, hb, s, hs, more, he, rfl⟩
      · exact .default hcall hp he
      · exact .body (hb ▸ hcall) hs he
    | none =>
      unfold places at he
      cases hm : m.shape with
      | property name type init =>
        rw [hm] at he
        obtain ⟨e', he', heq⟩ := List.mem_map.mp he
        cases heq
        rw [Option.mem_toList.mp he'] at hm
        exact .init hm
      | indexSignature =>
        rw [hm] at he
        cases he
      | constructor | method | accessor =>
        rw [hm] at hcall
        cases hcall
  · rintro (hm | ⟨hcall, hp, he⟩ | ⟨hcall, hs, he⟩)
    · unfold places
      rw [hm]
      simp
    · rw [places_of_callable hcall, mem_callablePlaces]
      exact .inl ⟨_, hp, he, rfl⟩
    · rw [places_of_callable hcall, mem_callablePlaces]
      exact .inr ⟨_, rfl, _, hs, _, he, rfl⟩

/-- Every expression of a member, decorators apart, has one place. -/
theorem places_snd (m : Member) : m.places.map Prod.snd = m.shape.exprs := by
  unfold places
  cases m.shape with
  | property | indexSignature => simp [MemberShape.exprs, Function.comp_def]
  | constructor | method | accessor =>
    simp [callablePlaces, MemberShape.exprs, Function.comp_def, List.map_flatMap, under_snd, Stmt.places_snd,
      List.filterMap_eq_flatMap_toList]
    rfl

end Member

end ContractCompiler
