import ContractCompiler.Proofs.Reading.Parts

/-!
# The parts of annotations and expressions

Every annotation and every expression is read with its parts one after the other (`grows_typeExpr`, `grows_expression`). An
annotation in parentheses is the one inside them, so it need not start where it was read from.
-/

namespace ContractCompiler

namespace Parser

variable {R : Part → ParserState → ParserState → Prop} (hR : Reading R)

include hR

/-! ## Names -/

/-- A name is read from one token. -/
theorem grows_identBy {name? : TokenKind → Option String} (hend : name? .endOfInput = none) (what : Missing) :
    Grows R (identBy name? what) fun i => [.name name? i] := by
  intro s s' i h
  obtain ⟨name, hname, rfl, rfl⟩ := identBy_eq_ok.mp h
  have hk : s.here.kind ≠ .endOfInput := by
    intro hk
    rw [hk, hend] at hname
    cases hname
  exact .token hR hk rfl rfl ⟨hk, hname, rfl, rfl⟩

theorem grows_bindingIdent (what : Missing) : Grows R (bindingIdent what) fun i => [.binding i] :=
  grows_identBy hR rfl what

theorem grows_declaredIdent (what : Missing) : Grows R (declaredIdent what) fun i => [.declared i] :=
  grows_identBy hR rfl what

/-! ## Annotations -/

section Types

variable {inner : Parser TypeExpr} (hinner : Grows R inner fun t => [.type t])

include hinner

/-- A type name is read with its parts and its arguments. -/
theorem along_namedType {s s' : ParserState} {t : TypeExpr} (hword : s.here.kind.typeKeyword? = none)
    (h : namedType inner s = .ok t s') : Along R [.type t] s s' := by
  obtain ⟨first, s₁, hfirst, h⟩ := bind_eq_ok.mp h
  have hname := grows_identBy hR rfl _ s s₁ first hfirst
  obtain ⟨name, hkind, rfl, -⟩ := identBy_eq_ok.mp hfirst
  have hnamed : ∀ more args, Makes R s ([.name TokenKind.typeName? ⟨name, s.here.span⟩] ++ more.map .declared ++
      args.map .type) (do return TypeExpr.named (← spanFrom s.here.span.start) (⟨name, s.here.span⟩ :: more) args)
      fun t s' => Along R [.type t] s s' :=
    fun more args => .onward hR (fun span => .type (.named span (⟨name, s.here.span⟩ :: more) args)) (fun _ => rfl)
      (fun _ => rfl) rfl rfl (fun _ => rfl) fun _ _ => ⟨_, more, rfl, hkind, hword⟩
  refine Makes.dotted (Q := fun t s' => Along R [.type t] s s') (grows_declaredIdent hR _)
    (fun more => .skip fun found => ?_) s₁ s' t hname h
  split
  · refine .read (.someUpTo _ _ hinner) fun args => ?_
    rw [← List.map_eq_flatMap]
    exact hnamed more args
  · refine .bind (m := fun args => [.name TokenKind.typeName? ⟨name, s.here.span⟩] ++ more.map .declared ++ args.map .type)
      (.pure (by simp)) (hnamed more)

/-- An annotation without brackets and bars is a keyword, a type name or one in parentheses. -/
theorem grows_primaryType : Grows R (primaryType inner) fun t => [.type t] := by
  intro s s' t h
  rw [primaryType, run_here] at h
  cases hword : s.here.kind.typeKeyword? with
  | some word =>
    rw [hword, run_advance] at h
    obtain ⟨rfl, rfl⟩ := pure_eq_ok.mp h
    refine .token hR (fun hk => ?_) rfl rfl trivial
    rw [hk] at hword
    cases hword
  | none =>
    rw [hword] at h
    dsimp only at h
    rw [run_accept] at h
    split at h
    · have hparen : Builds R s [] (do
          let type ← inner
          expect .rparen .typeClose
          return type) fun t => [.type t] := .read hinner fun type => .skip fun _ => .pure rfl
      obtain ⟨ts, hts⟩ := passed_next s
      exact hparen s.next s' t (.done hts) h
    · exact along_namedType hR hinner hword h

/-- An array type is read with its element type. -/
theorem grows_arrayType : Grows R (arrayType inner) fun t => [.type t] := by
  refine .of_here fun s₀ => .read (grows_primaryType hR hinner) fun elem => ?_
  refine .chain (f := fun t => [Part.type t]) (fun type => .skip fun open_ => .skip fun next => ?_) elem
  split
  · exact .skip fun _ => .whole hR rfl (by simp) (fun span => .type (.array span type)) (fun _ => rfl) (fun _ => rfl)
      (fun _ => rfl) fun _ _ => trivial
  · exact .pure rfl

/-- After a bar there is at least one more member. -/
theorem along_members {s s' : ParserState} {types : List TypeExpr} (hbar : s.here.kind = .mark .pipe)
    (h : collect (do
      if ← accept .pipe then return ([← arrayType inner], true) else return ([], false)) s = .ok types s') :
    (∃ first more, types = first :: more) ∧ Along R (types.map .type) s s' := by
  constructor
  · rw [collect, run_bounded, collectUpTo] at h
    obtain ⟨round, s₁, hround, h⟩ := bind_eq_ok.mp h
    rw [run_accept, if_pos hbar] at hround
    obtain ⟨type, s₂, -, hround⟩ := bind_eq_ok.mp hround
    obtain ⟨rfl, -⟩ := pure_eq_ok.mp hround
    obtain ⟨more, s₃, -, h⟩ := bind_eq_ok.mp h
    obtain ⟨rfl, -⟩ := pure_eq_ok.mp h
    exact ⟨type, more, rfl⟩
  · rw [List.map_eq_flatMap]
    refine Grows.collect (.of_builds fun s₀ => .skip fun found => ?_) s s' types h
    split
    · exact .read (grows_arrayType hR hinner) fun t => .pure (by simp)
    · exact .pure rfl

/-- A union is read with its members. -/
theorem grows_unionType : Grows R (unionType inner) fun t => [.type t] := by
  intro s s' t h
  rw [unionType, run_here] at h
  obtain ⟨_, s₁, hlead, h⟩ := bind_eq_ok.mp h
  obtain ⟨ts, hts⟩ := passed_of_ok hlead
  obtain ⟨first, s₂, hfirst, h⟩ := bind_eq_ok.mp h
  have hfirst := (grows_arrayType hR hinner s₁ s₂ first hfirst).before hts
  rw [run_check] at h
  by_cases hbar : s₂.here.kind = .mark .pipe
  · rw [decide_eq_true hbar, if_pos rfl] at h
    obtain ⟨types, s₃, htypes, h⟩ := bind_eq_ok.mp h
    obtain ⟨⟨second, more, rfl⟩, halong⟩ := along_members hR hinner hbar htypes
    have hunion : Makes R s (.type first :: .type second :: more.map .type) (do
        return TypeExpr.union (← spanFrom s.here.span.start) (first :: second :: more)) fun t s' => Along R [.type t] s s' :=
      .whole hR rfl (List.cons_ne_nil _ _) (fun span => .type (.union span (first :: second :: more))) (fun _ => rfl)
        (fun _ => rfl) (fun _ => rfl) fun _ _ => ⟨first, second, more, rfl⟩
    exact hunion s₃ s' t (hfirst.append halong) h
  · rw [decide_eq_false hbar, if_neg Bool.false_ne_true] at h
    obtain ⟨rfl, rfl⟩ := pure_eq_ok.mp h
    exact hfirst

end Types

/-- An annotation is read as a part. -/
theorem grows_typeExpr : Grows R typeExpr fun t => [.type t] := by
  refine .bounded fun n => ?_
  induction n with
  | zero => exact .fail
  | succ n ih => exact grows_unionType hR ih

theorem grows_optionalType : Grows R annotation fun t => t.toList.map .type := .after _ (grows_typeExpr hR)

omit hR in
/-- What holds of annotations if it holds along what stands in them holds of every annotation that is read. -/
theorem along_typeExpr (hR : TypeReading R) {s s' : ParserState} {t : TypeExpr} (h : typeExpr s = .ok t s') :
    Along R [.type t] s s' :=
  (grows_typeExpr hR.reading s s' t h).imp fun _ hp _ _ h => h (List.mem_singleton.mp hp ▸ trivial)

/-! ## Expressions -/

/-- The annotation after `as` takes at least one token. -/
theorem grows_asTarget : Grows R asTarget fun t => [.target t] := by
  intro s s' t h
  have hconsumed : Consumed s s' := by
    have hread := h
    rw [asTarget, run_here] at hread
    split at hread
    · rename_i hk
      rw [run_advance] at hread
      obtain ⟨rfl, rfl⟩ := pure_eq_ok.mp hread
      exact consumed_here (by simp [hk])
    · exact (grows_typeExpr hR s s' t hread).consumed (List.cons_ne_nil _ _)
  obtain ⟨ts, hts⟩ := hconsumed.passed
  exact .single hconsumed (hR ⟨h, nofun⟩ (.done hts))

section

variable {s₀ : ParserState}

/-- A member is read behind its target. -/
theorem builds_memberSuffix (target : Expr) : Builds R s₀ [.expr target] (memberSuffix target) fun e => [.expr e] :=
  .skip fun _ => .read (grows_identBy hR rfl _) fun i =>
    .through hR (.expr (.member (target.span.through i.span) target i)) rfl rfl rfl rfl rfl rfl rfl fun _ => trivial

/-- A binary expression goes from its left operand through its right one. -/
theorem builds_binary (op : BinaryOp) (left right : Expr) :
    Builds R s₀ [.expr left, .expr right] (pure (Expr.binary (left.span.through right.span) op left right))
      fun e => [.expr e] :=
  .through hR (.expr (.binary (left.span.through right.span) op left right)) rfl rfl rfl rfl rfl rfl rfl fun _ => trivial

end

section Expressions

variable {s₀ : ParserState} {inner : ExprForm → Parser Expr} (hinner : ∀ form, Grows R (inner form) fun e => [.expr e])

include hinner

/-- A call is read behind its callee. -/
theorem builds_callSuffix (target : Expr) : Builds R s₀ [.expr target] (callSuffix inner target) fun e => [.expr e] :=
  .read (.arguments (hinner .assignment)) fun args => .onward hR (fun span => .expr (.call span target args)) (fun _ => rfl)
    (fun _ => rfl) rfl rfl (fun _ => rfl) fun _ _ => trivial

/-- An index is read behind its target. -/
theorem builds_indexSuffix (target : Expr) : Builds R s₀ [.expr target] (indexSuffix inner target) fun e => [.expr e] :=
  .read (hinner .assignment) fun key => .skip fun _ => .onward hR (fun span => .expr (.index span target key)) (fun _ => rfl)
    (fun _ => rfl) rfl rfl (fun _ => rfl) fun _ _ => trivial

/-- A member, an index or a call after `?.` is read behind its target. -/
theorem builds_optionalLink (target : Expr) :
    Builds R s₀ [.expr target] (optionalLink inner target) fun e => [.expr e] := by
  have hlink : ∀ link : Expr, Builds R s₀ [.expr link] (pure (Expr.optionalChain link.span link)) fun e => [.expr e] :=
    fun link => .again hR (.expr (.optionalChain link.span link)) rfl rfl rfl rfl fun _ => trivial
  refine .skip fun next => ?_
  dsimp only
  split
  · exact .skip fun _ => .bind (builds_callSuffix hR hinner target) hlink
  · exact .skip fun _ => .bind (builds_indexSuffix hR hinner target) hlink
  · exact .bind (builds_memberSuffix hR target) hlink

/-- Whatever may follow an expression is read behind it. -/
theorem builds_suffix? (target : Expr) :
    Builds R s₀ [.expr target] (suffix? inner target) fun o => [.expr (o.getD target)] := by
  refine .skip fun token => ?_
  split
  · exact .bind (builds_optionalLink hR hinner target) fun e => .pure rfl
  · split
    · exact .pure rfl
    · exact .skip fun _ => .onward hR (fun span => .expr (.nonNull span target)) (fun _ => rfl) (fun _ => rfl) rfl rfl
        (fun _ => rfl) fun _ _ => trivial
  · exact .skip fun _ => .bind (builds_callSuffix hR hinner target) fun e => .pure rfl
  · exact .bind (builds_memberSuffix hR target) fun e => .pure rfl
  · exact .skip fun _ => .bind (builds_indexSuffix hR hinner target) fun e => .pure rfl
  · exact .pure rfl

/-- What is skipped after the callee is no part of the expression. -/
theorem grows_newExpr (hreads : Reads inner) : Grows R (newExpr inner) fun e => [.expr e] := by
  intro s s' e h
  rw [newExpr, run_here, run_advance] at h
  obtain ⟨primary, s₁, hprimary, h⟩ := bind_eq_ok.mp h
  obtain ⟨callee, s₂, hchain, h⟩ := bind_eq_ok.mp h
  obtain ⟨_, s₃, hangles, h⟩ := bind_eq_ok.mp h
  have hcallee : Along R [.expr callee] s.next s₂ := by
    refine Makes.chain (f := fun e => [Part.expr e]) (fun target => .skip fun found => ?_) primary s₁ s₂ callee
      (hinner .primary s.next s₁ primary hprimary) hchain
    split
    · exact .bind (builds_memberSuffix hR target) fun e => .pure rfl
    · exact .pure rfl
  obtain ⟨ts, hts⟩ := passed_next s
  obtain ⟨us, hus⟩ := passed_of_ok hangles
  obtain ⟨args, hargs, rfl⟩ : ∃ args : List Expr, Along R (args.map .expr) s₃ s' ∧
      e = .new (s'.spanFrom s.here.span.start) callee args := by
    rw [run_accept] at h
    split at h
    · obtain ⟨args, s₄, hargs, h⟩ := bind_eq_ok.mp h
      rw [run_spanFrom] at h
      obtain ⟨rfl, rfl⟩ := pure_eq_ok.mp h
      obtain ⟨vs, hvs⟩ := passed_next s₃
      exact ⟨args, (Grows.arguments (hinner .assignment) s₃.next s₄ args hargs).before hvs, rfl⟩
    · obtain ⟨args, s₄, hargs, h⟩ := bind_eq_ok.mp h
      obtain ⟨rfl, rfl⟩ := pure_eq_ok.mp hargs
      rw [run_spanFrom] at h
      obtain ⟨rfl, rfl⟩ := pure_eq_ok.mp h
      exact ⟨[], .refl s₃, rfl⟩
  have hall : Along R (.expr callee :: args.map .expr) s s' := ((hcallee.before hts).later hus).append hargs
  refine Part.Ended.single hR ⟨hall, ?_, rfl, s₂, s₃, fun hs => ?_, hangles, hargs.passed⟩ (hall.consumed (List.cons_ne_nil _ _))
  · rintro _ ⟨⟩
    rfl
  · exact (got_newCallee hreads hs (bind_eq_ok.mpr ⟨primary, s₁, hprimary, hchain⟩)).loose

/-- An entry of an object literal is read with its key and its value. -/
theorem grows_field : Grows R (field inner) Part.ofField := by
  refine .of_builds fun s₀ => .read (grows_declaredIdent hR _) fun key => .skip fun found => ?_
  split
  · refine .read (hinner .assignment) fun value => .keep ?_
    unfold Part.ofField
    split
    · simp
    · exact List.Sublist.refl _
  · refine .pure ?_
    simp [Part.ofField, Expr.isIdent]

/-- A primary expression is read as a part. -/
theorem grows_primaryExpr (hreads : Reads inner) : Grows R (primaryExpr inner) fun e => [.expr e] := by
  intro s s' e h
  -- A literal with elements spans its brackets, also if there are none.
  have hbrackets : ∀ {q : Unit → Parser Expr}, s.here.kind ≠ .endOfInput →
      Makes R s [] (q ()) (fun e s' => (Part.expr e).Ended R s s') → (advance >>= q) s = .ok e s' → Along R [.expr e] s s' := by
    intro q hk hq h
    refine (Makes.skip (fun _ => hq) s s' e (.refl s) h).single hR ⟨passed_of_ok h, fun hs => ?_⟩
    exact took_of_advance hs hk h
  have htoken : ∀ {e' : Expr}, s.here.kind ≠ .endOfInput → Part.ofExpr e' = [] → e'.span = s.here.span →
      (do advance; return e' : Parser Expr) s = .ok e s' → (Part.expr e').Own s s.next → Along R [.expr e] s s' := by
    intro e' hk hparts hspan h hown
    rw [run_advance] at h
    obtain ⟨rfl, rfl⟩ := pure_eq_ok.mp h
    exact .token hR hk hparts (congrArg some hspan) hown
  rw [primaryExpr, run_here] at h
  cases hliteral : s.here.kind.literal? with
  | some value =>
    rw [hliteral] at h
    refine htoken (fun hk => ?_) rfl rfl h trivial
    rw [hk] at hliteral
    cases hliteral
  | none =>
    rw [hliteral] at h
    dsimp only at h
    generalize hk : s.here.kind = k at h
    split at h
    · exact htoken (by simp [hk]) rfl rfl h trivial
    · exact htoken (by simp [hk]) rfl rfl h trivial
    · exact grows_newExpr hR hinner hreads s s' e h
    · refine hbrackets (by simp [hk]) ?_ h
      exact .read (hinner .assignment) fun e => .skip fun _ => .ended rfl (fun _ => rfl) (fun _ => rfl) fun _ _ => trivial
    · refine hbrackets (by simp [hk]) (.read (.listUpTo _ _ (hinner .assignment)) fun elements => ?_) h
      refine .ended rfl (fun _ => ?_) (fun _ => rfl) fun _ _ => trivial
      simp [Part.parts, Part.ofExpr, List.map_eq_flatMap]
    · refine hbrackets (by simp [hk]) (.read (.listUpTo _ _ (grows_field hR hinner)) fun fields => ?_) h
      exact .ended rfl (fun _ => rfl) (fun _ => rfl) fun _ _ => trivial
    · obtain ⟨i, s₁, hi, h⟩ := bind_eq_ok.mp h
      obtain ⟨rfl, rfl⟩ := pure_eq_ok.mp h
      obtain ⟨name, hname, rfl, rfl⟩ := identBy_eq_ok.mp hi
      refine .token hR (fun hend => ?_) rfl rfl trivial
      rw [hend] at hname
      cases hname

/-- So is an operand of a prefix operator, or an expression with one. -/
theorem grows_unaryExpr (hreads : Reads inner) : Grows R (unaryExpr inner) fun e => [.expr e] := by
  have hpostfix : Grows R (postfixExpr inner) fun e => [.expr e] :=
    .of_builds fun _ => .read (grows_primaryExpr hR hinner hreads) fun e =>
      .chain (f := fun e => [Part.expr e]) (builds_suffix? hR hinner) e
  refine .of_here fun s₀ => ?_
  dsimp only
  split
  · rename_i op _
    exact .skip fun _ => .read (hinner .unary) fun e => .whole hR rfl (by simp) (fun span => .expr (.unary span op e))
      (fun _ => rfl) (fun _ => rfl) (fun _ => rfl) fun _ _ => trivial
  · rename_i op _ _
    exact .skip fun _ => .read (hinner .unary) fun e => .whole hR rfl (by simp) (fun span => .expr (.update span op true e))
      (fun _ => rfl) (fun _ => rfl) (fun _ => rfl) fun _ _ => trivial
  · refine .read hpostfix fun e => .skip fun next => ?_
    split
    · rename_i op _
      split
      · exact .pure rfl
      · exact .skip fun _ => .whole hR rfl (by simp) (fun span => .expr (.update span op false e)) (fun _ => rfl)
          (fun _ => rfl) (fun _ => rfl) fun _ _ => trivial
    · exact .pure rfl

theorem grows_exponentExpr (hreads : Reads inner) : Grows R (exponentExpr inner) fun e => [.expr e] := by
  refine .of_builds fun s₀ => .read (grows_unaryExpr hR hinner hreads) fun base => .skip fun found => ?_
  split
  · exact .read (hinner .exponent) fun exponent => builds_binary hR _ base exponent
  · exact .pure rfl

end Expressions

section Layers

variable {s₀ : ParserState}

/-- An assertion is read behind its expression. -/
theorem builds_assertion? (left : Expr) :
    Builds R s₀ [.expr left] (assertion? left) fun o => [.expr (o.getD left)] := by
  refine .skip fun token => ?_
  split
  · exact .pure rfl
  split
  · exact .skip fun _ => .read (grows_asTarget hR) fun t =>
      .through hR (.expr (.asType (left.span.through t.span) left t)) rfl rfl rfl rfl rfl rfl rfl fun _ => trivial
  split
  · exact .skip fun _ => .read (grows_typeExpr hR) fun t =>
      .through hR (.expr (.satisfiesType (left.span.through t.span) left t)) rfl rfl rfl rfl rfl rfl rfl fun _ => trivial
  · exact .pure rfl

/-- An operator and its right operand are read behind the left one. -/
theorem builds_tierStep (tier : Tier) {operand : Parser Expr} (hoperand : Grows R operand fun e => [.expr e])
    (left : Expr) : Builds R s₀ [.expr left] (tierStep tier operand left) fun o => [.expr (o.getD left)] := by
  have hoperation : Builds R s₀ [.expr left] (operation? tier operand left) fun o => [.expr (o.getD left)] := by
    refine .skip fun s => ?_
    split
    · rename_i op len _
      exact .skip fun _ => .read hoperand fun right =>
        .through hR (.expr (.binary (left.span.through right.span) op left right)) rfl rfl rfl rfl rfl rfl rfl fun _ => trivial
    · exact .pure rfl
  unfold tierStep
  split
  · refine .bind (builds_assertion? hR left) fun o => ?_
    cases o with
    | some e => exact .pure rfl
    | none => exact hoperation
  · exact hoperation

variable {inner : ExprForm → Parser Expr} (hinner : ∀ form, Grows R (inner form) fun e => [.expr e])

include hinner

/-- An operation is read as a part, whatever its tier. -/
theorem grows_binaryExpr (hreads : Reads inner) (tiers : List Tier) :
    Grows R (binaryExpr inner tiers) fun e => [.expr e] := by
  induction tiers with
  | nil => exact grows_exponentExpr hR hinner hreads
  | cons tier tighter ih =>
    refine .of_builds fun s₀ => .read ih fun left => ?_
    exact .chain (f := fun e => [Part.expr e]) (builds_tierStep hR tier ih) left

theorem grows_assignmentExpr (hreads : Reads inner) : Grows R (assignmentExpr inner) fun e => [.expr e] := by
  have hconditional : Grows R (conditionalExpr inner) fun e => [.expr e] := by
    refine .of_builds fun s₀ => .read (grows_binaryExpr hR hinner hreads _) fun test => .skip fun found => ?_
    split
    · refine .read (hinner .assignment) fun consequent => .skip fun _ => .read (hinner .assignment) fun alternate => ?_
      exact .through hR (.expr (.conditional (test.span.through alternate.span) test consequent alternate))
        rfl rfl rfl rfl rfl rfl rfl fun _ => trivial
    · exact .pure rfl
  refine .of_builds fun s₀ => .read hconditional fun left => .skip fun s => ?_
  split
  · exact .skip fun _ => .read (hinner .assignment) fun right => builds_binary hR _ left right
  · exact .pure rfl

end Layers

theorem grows_exprWithin (n : Nat) (form : ExprForm) : Grows R (exprWithin n form) fun e => [.expr e] := by
  induction n generalizing form with
  | zero => exact .fail
  | succ n ih =>
    have hreads := reads_exprWithin n
    cases form with
    | assignment => exact grows_assignmentExpr hR ih hreads
    | exponent => exact grows_exponentExpr hR ih hreads
    | unary => exact grows_unaryExpr hR ih hreads
    | primary => exact grows_primaryExpr hR ih hreads

/-- An expression that stands in no other one is read as a part. -/
theorem grows_expression : Grows R expression fun e => [.value e] := by
  have hexpr : Grows R expression fun e => [.expr e] := .bounded fun n => grows_exprWithin hR n .assignment
  intro s s' e h
  have halong := hexpr s s' e h
  exact .single (halong.consumed (List.cons_ne_nil _ _)) (hR ⟨h, nofun⟩ halong)

theorem grows_initializer : Grows R (after .eq expression) fun e => e.toList.map .value := .after _ (grows_expression hR)

end Parser

end ContractCompiler
