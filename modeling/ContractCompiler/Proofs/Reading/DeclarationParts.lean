import ContractCompiler.Proofs.Reading.ExpressionParts

/-!
# The parts of statements, classes and items

Every statement, member, class and item is read with its parts one after the other, and so is everything that is read up to
the end of the input (`along_items`).
-/

namespace ContractCompiler

namespace Parser

variable {R : Part → ParserState → ParserState → Prop}

/-- Variable statements declare at least one variable. -/
theorem declarators_ne_nil {s s' : ParserState} {ds : List Declarator} (h : declarators s = .ok ds s') : ds ≠ [] := by
  rw [declarators, collect, run_bounded, collectUpTo] at h
  obtain ⟨⟨items, more⟩, s₁, hround, h⟩ := bind_eq_ok.mp h
  obtain ⟨d, s₂, -, hround⟩ := bind_eq_ok.mp hround
  obtain ⟨comma, s₃, -, hround⟩ := bind_eq_ok.mp hround
  obtain ⟨hitems, rfl⟩ := pure_eq_ok.mp hround
  cases hitems
  dsimp only at h
  split at h
  · obtain ⟨rest, s₄, -, h⟩ := bind_eq_ok.mp h
    obtain ⟨rfl, rfl⟩ := pure_eq_ok.mp h
    exact List.cons_ne_nil _ _
  · obtain ⟨rfl, rfl⟩ := pure_eq_ok.mp h
    exact List.cons_ne_nil _ _

section

variable (hR : Reading R)

include hR

/-! ## Statements -/

/-- A condition is an expression in parentheses. -/
theorem grows_condition (construct : Construct) : Grows R (condition construct) fun e => [.value e] :=
  .of_builds fun _ => .skip fun _ => .read (grows_expression hR) fun _ => .skip fun _ => .pure rfl

/-- The variables of a statement are read one after the other. -/
theorem grows_declarators : Grows R declarators fun ds => ds.map .declarator := by
  have hdeclarator : Grows R declarator fun d => [.declarator d] := by
    refine .of_here fun s₀ => ?_
    dsimp only
    refine .skipIf (.read (grows_bindingIdent hR _) fun name => .skip fun _ => .read (grows_optionalType hR) fun type => ?_)
    refine .read (grows_initializer hR) fun init => .whole hR rfl (by simp) (fun span => .declarator ⟨name, type, init, span⟩)
      (fun _ => rfl) (fun _ => ?_) (fun _ => rfl) fun _ _ => trivial
    simp [Part.parts, Part.ofTyped]
  simp only [List.map_eq_flatMap]
  exact .collect (.of_builds fun _ => .read hdeclarator fun _ => .skip fun _ => .pure (by simp))

section Inner

variable {inner : Parser Stmt} (hinner : Grows R inner fun stmt => [.stmt stmt])

include hinner

/-- The rest of a `for` over a collection: its variable, the collection and its body. -/
theorem ended_forEachTail {s₀ : ParserState} (kind : VarKind) :
    Makes R s₀ [] (forEachTail inner s₀.here.span.start kind) fun stmt s' => (Part.stmt stmt).Ended R s₀ s' := by
  refine .read (grows_bindingIdent hR _) fun name => .skip fun isOf => ?_
  have rest : ∀ traversal, Makes R s₀ [.binding name] (do
      let iterable ← expression
      expect .rparen .forEachClose
      let body ← inner
      return Stmt.forEach (← spanFrom s₀.here.span.start) kind name traversal iterable body)
      fun stmt s' => (Part.stmt stmt).Ended R s₀ s' :=
    fun traversal => .read (grows_expression hR) fun _ => .skip fun _ => .read hinner fun _ =>
      .ended rfl (fun _ => rfl) (fun _ => rfl) fun _ _ => Part.own_stmt rfl trivial
  dsimp only
  split
  · exact .skip fun _ => rest _
  · exact .skip fun _ => .skip fun _ => rest _

/-- The rest of a counting `for` after what it starts with: the test, the update and the body. -/
theorem ended_forTail {s₀ : ParserState} (init : Option Stmt) :
    Makes R s₀ (init.toList.map .stmt) (forTail inner s₀.here.span.start init)
      fun stmt s' => (Part.stmt stmt).Ended R s₀ s' := by
  refine .skip fun _ => .skip fun _ => .readUnless (grows_expression hR) fun test => ?_
  refine .skip fun _ => .skip fun _ => .readUnless (grows_expression hR) fun update => ?_
  refine .skip fun _ => .read hinner fun body => ?_
  exact .ended rfl (fun _ => rfl) (fun _ => rfl) fun _ _ => Part.own_stmt rfl trivial

/-- The variables of a `for` start at a word of their own, inside the statement. -/
theorem completes_forStmt : Completes R (forStmt inner) .stmt := by
  intro s s' stmt h
  rw [forStmt, run_here, run_advance] at h
  obtain ⟨_, s₁, hopen, h⟩ := bind_eq_ok.mp h
  obtain ⟨ts, hts⟩ := passed_next s
  obtain ⟨us, hus⟩ := passed_of_ok hopen
  have hpassed := hts.trans hus
  rw [run_here] at h
  cases hvar : s₁.here.kind.varKind? with
  | some kind =>
    obtain ⟨vs, hword⟩ := passed_next s₁
    rw [hvar] at h
    dsimp only at h
    rw [run_advance, run_kindAt] at h
    split at h
    · exact ended_forEachTail hR hinner kind s₁.next s' stmt (.done (hpassed.trans hword)) h
    · obtain ⟨decls, s₂, hdecls, h⟩ := bind_eq_ok.mp h
      rw [run_spanFrom] at h
      have hinit : (Part.stmt (.var (s₂.spanFrom s₁.here.span.start) kind decls)).Ended R s₁ s₂ := by
        refine ⟨(grows_declarators hR s₁.next s₂ decls hdecls).before hword, ?_, ?_⟩
        · rintro _ ⟨⟩
          rfl
        · exact Part.own_stmt rfl (declarators_ne_nil hdecls)
      have hconsumed : Consumed s₁ s₂ := hinit.along.consumed (by simpa [Part.parts, Part.ofStmt] using declarators_ne_nil hdecls)
      exact ended_forTail hR hinner (some _) s₂ s' stmt ((hinit.single hR hconsumed).before hpassed) h
  | none =>
    rw [hvar] at h
    dsimp only at h
    split at h
    · exact ended_forTail hR hinner none s₁ s' stmt (.done hpassed) h
    · obtain ⟨e, s₂, he, h⟩ := bind_eq_ok.mp h
      have hinit : Along R [.stmt (.expr e.span e)] s₁ s₂ := by
        have hvalue := grows_expression hR s₁ s₂ e he
        exact hvalue.enclose hR (List.cons_ne_nil _ _) rfl rfl (.again rfl rfl) (Part.own_stmt rfl trivial)
      exact ended_forTail hR hinner (some _) s₂ s' stmt (hinit.before hpassed) h

omit hR in
/-- The statements of a block are read one after the other. -/
theorem grows_blockOf : Grows R (blockOf inner) fun b => b.stmts.map .stmt := by
  have hstmts : Grows R (stmtsUpToBrace inner) fun ss => ss.map .stmt := by
    simp only [List.map_eq_flatMap]
    refine .collect (.of_builds fun s₀ => .skip fun _ => ?_)
    split
    · exact .pure rfl
    refine .skip fun _ => ?_
    split
    · exact .pure rfl
    refine .read hinner.attempt fun r => ?_
    cases r with
    | some stmt => exact .pure (by simp)
    | none => exact .skip fun _ => .skip fun _ => .pure (by simp)
  intro s s' b h
  obtain ⟨-, h, -⟩ := blockOf_eq_ok h
  obtain ⟨ts, hts⟩ := passed_next s
  exact (hstmts s.next s' b.stmts h).before hts

omit hR hinner in
/-- A statement that starts with a word or a mark of its own. -/
theorem ended_of_advance {s s' : ParserState} {stmt : Stmt} {q : Unit → Parser Stmt}
    (hk : s.here.kind ≠ .endOfInput) (hq : Makes R s [] (q ()) fun stmt s' => (Part.stmt stmt).Ended R s s')
    (h : (advance >>= q) s = .ok stmt s') : (Part.stmt stmt).Ended R s s' ∧ Consumed s s' :=
  ⟨Makes.skip (fun _ => hq) s s' stmt (.refl s) h, passed_of_ok h, fun hs => took_of_advance hs hk h⟩

omit hinner in
/-- A `return` is read with its value, if it has one. -/
theorem completes_returnStmt : Completes R returnStmt .stmt := by
  refine .of_here fun s₀ => .skip fun _ => .skip fun token => ?_
  dsimp only
  refine .readUnless (grows_expression hR) fun value => .skip fun _ => ?_
  exact .ended rfl (fun _ => rfl) (fun _ => rfl) fun _ _ => Part.own_stmt rfl trivial

/-- An `if` is read with its condition and its branches. -/
theorem completes_ifStmt : Completes R (ifStmt inner) .stmt := by
  refine .of_here fun s₀ => .skip fun _ => .read (grows_condition hR _) fun cond => .read hinner fun thenBranch => ?_
  refine .skip fun _ => .readIf hinner fun elseBranch => ?_
  exact .ended rfl (fun _ => rfl) (fun _ => rfl) fun _ _ => Part.own_stmt rfl trivial

/-- A `do` is read with its body and its condition. -/
theorem completes_doStmt : Completes R (doStmt inner) .stmt := by
  refine .of_here fun s₀ => .skip fun _ => .read hinner fun body => .skip fun _ => .read (grows_condition hR _) fun cond => ?_
  exact .skip fun _ => .ended rfl (fun _ => rfl) (fun _ => rfl) fun _ _ => Part.own_stmt rfl trivial

omit hR hinner in
/-- A block takes at least its opening brace. -/
theorem consumed_blockOf {s s' : ParserState} {b : Block} (h : blockOf inner s = .ok b s') : Consumed s s' := by
  obtain ⟨hk, h, -⟩ := blockOf_eq_ok h
  obtain ⟨ts, hts⟩ := passed_of_ok h
  exact (consumed_here (hk ▸ nofun)).later hts

/-- A statement is read with its parts, and takes at least one token. -/
theorem ended_stmtLayer (hspans : Spans inner Stmt.span) {s s' : ParserState} {stmt : Stmt}
    (h : stmtLayer inner s = .ok stmt s') : (Part.stmt stmt).Ended R s s' ∧ Consumed s s' := by
  rw [stmtLayer, run_here] at h
  generalize hk : s.here.kind = k at h
  split at h
  · obtain ⟨b, s₁, hb, h⟩ := bind_eq_ok.mp h
    obtain ⟨rfl, rfl⟩ := pure_eq_ok.mp h
    refine ⟨⟨grows_blockOf hinner s s₁ b hb, ?_, trivial, ?_⟩, consumed_blockOf hb⟩
    · rintro _ ⟨⟩
      exact (blockOf_eq_ok hb).2.2
    · rintro _ ⟨⟩
      exact ⟨inner, hspans, hb⟩
  · refine ended_of_advance (by simp [hk]) ?_ h
    exact .ended rfl (fun _ => rfl) (fun _ => rfl) fun _ _ => Part.own_stmt rfl trivial
  · exact ⟨completes_returnStmt hR s s' stmt h, passed_of_ok h, fun hs => took_of_advance hs (by simp [hk]) h⟩
  · exact ⟨completes_ifStmt hR hinner s s' stmt h, passed_of_ok h, fun hs => took_of_advance hs (by simp [hk]) h⟩
  · refine ended_of_advance (by simp [hk]) ?_ h
    refine .read (grows_condition hR _) fun cond => .read hinner fun body => ?_
    exact .ended rfl (fun _ => rfl) (fun _ => rfl) fun _ _ => Part.own_stmt rfl trivial
  · exact ⟨completes_doStmt hR hinner s s' stmt h, passed_of_ok h, fun hs => took_of_advance hs (by simp [hk]) h⟩
  · exact ⟨completes_forStmt hR hinner s s' stmt h, passed_of_ok h, fun hs => took_of_advance hs (by simp [hk]) h⟩
  · refine ended_of_advance (by simp [hk]) (.skip fun _ => ?_) h
    exact .ended rfl (fun _ => rfl) (fun _ => rfl) fun _ _ => Part.own_stmt rfl trivial
  · refine ended_of_advance (by simp [hk]) (.skip fun _ => ?_) h
    exact .ended rfl (fun _ => rfl) (fun _ => rfl) fun _ _ => Part.own_stmt rfl trivial
  · refine ended_of_advance (by simp [hk]) (.read (grows_expression hR) fun value => .skip fun _ => ?_) h
    exact .ended rfl (fun _ => rfl) (fun _ => rfl) fun _ _ => Part.own_stmt rfl trivial
  · generalize hvar : k.varKind? = var at h
    cases var with
    | some kind =>
      have hne : k ≠ .endOfInput := by
        rintro rfl
        cases hvar
      refine ended_of_advance (hk ▸ hne) ?_ h
      refine .readSuch (grows_declarators hR) declarators_ne_nil fun decls hdecls => .skip fun _ => ?_
      exact .ended rfl (fun _ => rfl) (fun _ => rfl) fun _ _ => Part.own_stmt rfl hdecls
    | none =>
      have hexpr : Makes R s [] (do
          let e ← expression
          terminator
          return Stmt.expr (← spanFrom s.here.span.start) e) fun stmt s' => (Part.stmt stmt).Ended R s s' :=
        .read (grows_expression hR) fun e => .skip fun _ =>
          .ended rfl (fun _ => rfl) (fun _ => rfl) fun _ _ => Part.own_stmt rfl trivial
      have hended := hexpr s s' stmt (.refl s) h
      refine ⟨hended, ?_⟩
      obtain ⟨e, s₁, he, h⟩ := bind_eq_ok.mp h
      obtain ⟨ts, hts⟩ := passed_of_ok h
      exact ((grows_expression hR s s₁ e he).consumed (List.cons_ne_nil _ _)).later hts

end Inner

/-- Every statement was read part by part, and spans the tokens it was read from. -/
theorem read_stmtWithin (n : Nat) :
    Grows R (stmtWithin n) (fun stmt => [.stmt stmt]) ∧ Spans (stmtWithin n) Stmt.span := by
  induction n with
  | zero => exact ⟨.fail, fun _ _ _ _ h => nomatch h⟩
  | succ n ih =>
    obtain ⟨hinner, hspans⟩ := ih
    refine ⟨fun s s' stmt h => ?_, fun s s' stmt hs h => ?_⟩
    · obtain ⟨hended, hconsumed⟩ := ended_stmtLayer hR hinner hspans h
      exact hended.single hR hconsumed
    · obtain ⟨hended, hconsumed⟩ := ended_stmtLayer hR hinner hspans h
      exact hended.covers (hconsumed.took hs) _ rfl

/-- A statement is read as a part. -/
theorem grows_statement : Grows R statement fun stmt => [.stmt stmt] := .bounded fun n => (read_stmtWithin hR n).1

omit hR in
/-- A statement spans the tokens it takes, however deep it may be. -/
theorem spans_stmtWithin (n : Nat) : Spans (stmtWithin n) Stmt.span :=
  (read_stmtWithin Reading.trivial n).2

omit hR in
/-- A statement spans the tokens it takes. -/
theorem spans_statement : Spans statement Stmt.span := fun s s' stmt hs h => spans_stmtWithin _ s s' stmt hs h

/-- A block is read as a part. -/
theorem grows_block : Grows R block fun b => [.block b] := by
  intro s s' b h
  have hended : (Part.block b).Ended R s s' := by
    refine ⟨grows_blockOf (grows_statement hR) s s' b h, ?_, statement, spans_statement, h⟩
    rintro _ ⟨⟩
    exact (blockOf_eq_ok h).2.2
  exact hended.single hR (consumed_blockOf h)

/-! ## Members -/

/-- Decorators are read one after the other. -/
theorem grows_decorators : Grows R decorators fun ds => ds.map .decorator := by
  simp only [List.map_eq_flatMap]
  refine .collect (.of_here fun s₀ => .skip fun found => ?_)
  split
  · refine .read (.attempt (grows_declaredIdent hR _)) fun name => ?_
    cases name with
    | none => exact .pure rfl
    | some name =>
      refine .read (.afterAll .lparen (.arguments (grows_expression hR))) fun args => ?_
      refine .whole hR rfl (by simp) (fun span => .decorator ⟨name, args, span⟩) (fun _ => rfl) (fun _ => ?_) (fun _ => rfl)
        fun _ _ => trivial
      simp [Part.parts]
  · exact .pure rfl

/-- Parameters are read one after the other. -/
theorem grows_params : Grows R params fun ps => ps.map .param := by
  simp only [List.map_eq_flatMap]
  refine .listUpTo _ _ (.of_here fun s₀ => .skip fun mods => .read (grows_bindingIdent hR _) fun name => ?_)
  refine .skip fun optional => .read (grows_optionalType hR) fun type => .read (grows_initializer hR) fun default => ?_
  refine .whole hR rfl (by simp) (fun span => .param ⟨name, type, optional, default, mods, span⟩) (fun _ => rfl)
    (fun _ => ?_) (fun _ => rfl) fun _ _ => trivial
  simp [Part.parts, Part.ofTyped]

/-- The body of a callable is read as a block, if it has one. -/
theorem grows_body : Grows R body fun b => b.toList.map .block := by
  refine .of_builds fun s₀ => .skip fun found => ?_
  split
  · rw [map_eq_bind]
    exact .read (grows_block hR) fun b => .pure rfl
  · exact .skip fun _ => .pure rfl

/-- The parameters of a callable, its result and its body, one after the other. -/
theorem along_callable {s s₁ s₂ s' : ParserState} {ps : List Param} {returns : Option TypeExpr} {b : Option Block}
    (hps : params s = .ok ps s₁) (hreturns : annotation s₁ = .ok returns s₂) (hb : body s₂ = .ok b s') :
    Along R (Part.ofCallable ps returns b) s s' := by
  have hps := grows_params hR s s₁ ps hps
  have hreturns := grows_optionalType hR s₁ s₂ returns hreturns
  exact (hps.append hreturns).append (grows_body hR s₂ s' b hb)

/-- A member is read with its parts, whatever it is. -/
theorem along_shape {s s' : ParserState} {shape : MemberShape} (h : ShapeRead s shape s') :
    Along R (Part.ofShape shape) s s' := by
  cases h with
  | @accessor kind name ps returns b s₁ _ _ _ _ hname hps hreturns hb =>
    obtain ⟨ts, hts⟩ := passed_next s
    obtain ⟨us, hus⟩ := passed_next s₁
    have hname := (grows_declaredIdent hR _ _ _ _ hname).before hts
    exact hname.append ((along_callable hR hps hreturns hb).before hus)
  | @indexSignature key keyType valueType s₁ s₂ s₃ _ _ hkey hkeyType hvalueType hend =>
    obtain ⟨ts, hts⟩ := passed_next s
    obtain ⟨us, hus⟩ := passed_next s₁
    obtain ⟨vs, hvs⟩ := passed_next s₂
    obtain ⟨ws, hws⟩ := passed_next s₂.next
    obtain ⟨xs, hxs⟩ := hend
    have hkey := (grows_bindingIdent hR _ _ _ _ hkey).before hts
    have hkeyType := (grows_typeExpr hR _ _ _ hkeyType).before hus
    have hvalueType := (grows_typeExpr hR _ _ _ hvalueType).before (hvs.trans hws)
    exact hkey.append (hkeyType.append (hvalueType.later hxs))
  | @constructor ps b s₁ _ _ hps hb =>
    obtain ⟨ts, hts⟩ := passed_next s
    obtain ⟨us, hus⟩ := passed_next s.next
    have hps := (grows_params hR _ s₁ ps hps).before (hts.trans hus)
    simpa [Part.ofShape, Part.ofCallable] using hps.append (grows_body hR s₁ s' b hb)
  | @method name ps returns b s₁ s₂ s₃ _ _ _ hname hsigned hangles _ hps hreturns hb =>
    obtain ⟨ts, hts⟩ := hsigned.passed
    obtain ⟨us, hus⟩ := passed_of_ok hangles
    obtain ⟨vs, hvs⟩ := passed_next s₃
    have hname := (grows_declaredIdent hR _ _ _ _ hname).later hts
    exact hname.append ((along_callable hR hps hreturns hb).before (hus.trans hvs))
  | @property name t init s₁ s₂ s₃ s₄ _ hname hsigned htype hinit hend =>
    obtain ⟨ts, hts⟩ := hsigned.passed
    obtain ⟨us, hus⟩ := hend
    have hname := (grows_declaredIdent hR _ _ _ _ hname).later hts
    have htype := grows_optionalType hR s₂ s₃ t htype
    exact hname.append (htype.append ((grows_initializer hR s₃ s₄ init hinit).later hus))

/-- What a member is, is read as a part. -/
theorem grows_memberShape : Grows R memberShape fun shape => [.shape shape] := by
  intro s s' shape h
  have hread := memberShape_eq_ok h
  have halong := along_shape hR hread
  refine .single ?_ (hR ⟨h, nofun⟩ halong)
  -- Only a constructor may have no parts, but it has its word.
  cases hread with
  | constructor hk hps hb =>
    obtain ⟨ts, hts⟩ := passed_next s.next
    obtain ⟨us, hus⟩ := passed_of_ok hps
    obtain ⟨vs, hvs⟩ := passed_of_ok hb
    exact (consumed_here hk).later (hts.trans (hus.trans hvs))
  | accessor | indexSignature | method | property => exact halong.consumed (List.cons_ne_nil _ _)

/-- A member is read with its decorators and what it is. -/
theorem completes_member : Completes R member .member := by
  refine .of_here fun s₀ => .read (grows_decorators hR) fun decs => .skip fun mods => .read (grows_memberShape hR) fun shape => ?_
  exact .ended rfl (fun _ => rfl) (fun _ => rfl) fun _ _ => trivial

omit hR in
/-- Every member spans the tokens it was read from, its decorators and modifiers among them. -/
theorem spans_member : Spans member Member.span := by
  intro s s' m hs h
  have hended := completes_member Reading.trivial s s' m h
  exact hended.covers ((hended.along.consumed (by simp [Part.parts])).took hs) _ rfl

/-- The members of a class are read one after the other. -/
theorem grows_members : Grows R members fun ms => ms.map .member := by
  have hmember : Grows R member fun m => [.member m] := by
    intro s s' m h
    have hended := completes_member hR s s' m h
    exact hended.single hR (hended.along.consumed (by simp [Part.parts]))
  simp only [List.map_eq_flatMap]
  refine .collect (.of_builds fun s₀ => .skip fun _ => ?_)
  split
  · exact .pure rfl
  refine .skip fun _ => ?_
  split
  · exact .pure rfl
  refine .skip fun _ => ?_
  split
  · exact .pure rfl
  refine .read hmember.attempt fun r => ?_
  cases r with
  | some m => exact .pure (by simp)
  | none => exact .skip fun _ => .pure (by simp)

/-! ## Classes and items -/

/-- The names of a base class are read one after the other. -/
theorem grows_baseClass : Grows R baseClass fun base => base.toList.flatMap (Part.ofPath TokenKind.bindingName?) := by
  refine .of_builds fun s₀ => .skip fun found => ?_
  split
  · refine .read (grows_bindingIdent hR _) fun first => .dotted (grows_declaredIdent hR _) fun more => .skip fun _ => .pure ?_
    simp [Part.ofPath, Part.binding]
  · exact .pure rfl

/-- A class spans its item, from the first decorator on. -/
theorem along_classDecl {s s₁ s' : ParserState} {decs : List Decorator} {isAbstract : Bool} {c : ClassDecl}
    (hdecs : Along R (decs.map .decorator) s s₁) (hword : s₁.here.kind = .keyword .class_)
    (h : classDecl decs isAbstract s.here.span.start s₁ = .ok c s') : Along R [.decl c] s s' := by
  obtain ⟨s₂, s₃, s₄, s₅, s₆, hname, hangles, hbase, hheader, hopen, hmembers, rfl, hspan, hs'⟩ := classDecl_eq_ok h
  obtain ⟨ts, hts⟩ := passed_next s₁
  have hname := (grows_bindingIdent hR _ _ _ _ hname).before hts
  obtain ⟨us, hus⟩ := passed_of_ok hangles
  have hbase := (grows_baseClass hR _ _ _ hbase).before hus
  obtain ⟨vs, hvs⟩ := passed_of_ok hheader
  obtain ⟨ws, hws⟩ := passed_next s₅
  have hmembers := (grows_members hR _ _ _ hmembers).before (hvs.trans hws)
  have hall : Along R (Part.decl c).parts s s' := by
    have hnoted : Passed s₆ [] s' := hs' ▸ ⟨rfl, rfl, List.prefix_refl _⟩
    simpa [Part.parts] using (hdecs.append (hname.append (hbase.append hmembers))).later hnoted
  obtain ⟨xs, hxs⟩ := hdecs.passed
  refine Part.Ended.single hR ⟨hall, ?_, _, isAbstract, xs, s₁, hxs, hword, h⟩ (hall.consumed (by simp [Part.parts]))
  rintro _ ⟨⟩
  exact hspan

/-- The names of an import specifier are read one after the other. -/
theorem grows_importSpecifier : Grows R importSpecifier Part.ofSpecifier := by
  refine .of_builds fun s₀ => .read (grows_declaredIdent hR _) fun imported => .skip fun found => ?_
  split
  · refine .read (grows_bindingIdent hR _) fun localName => .keep ?_
    unfold Part.ofSpecifier
    split
    · simp
    · exact List.Sublist.refl _
  · exact .pure (if_pos rfl)

/-- The names of an import are read after its default name. -/
theorem builds_importNames {s₀ : ParserState} (default : Option Ident) :
    Builds R s₀ (default.toList.map .binding) (importNames default) fun d => (Part.import_ d).parts := by
  refine .skip fun found => ?_
  split
  · exact .skip fun _ => .read (grows_bindingIdent hR _) fun name => .skip fun path => .pure (by simp [Part.parts])
  refine .skip fun found => ?_
  split
  · exact .read (.listUpTo _ _ (grows_importSpecifier hR)) fun named => .skip fun path => .pure (by simp [Part.parts])
  · exact .skip fun path => .pure (by simp [Part.parts])

/-- The default name of an import is the token at the cursor. -/
theorem grows_importDecl : Grows R importDecl fun d => (Part.import_ d).parts := by
  refine .of_builds fun s₀ => .skip fun _ => .skip fun st => ?_
  dsimp only
  refine .skipIf fun s s' d halong h => ?_
  rw [run_here] at h
  generalize hkind : s.here.kind = kind at h
  split at h
  · have hpath : Builds R s₀ [] (do return (⟨none, none, [], ← importPath .importPath⟩ : Import))
        fun d => (Part.import_ d).parts := .skip fun path => .pure rfl
    exact hpath s s' d halong h
  · cases hname : kind.bindingName? with
    | none =>
      rw [hname] at h
      exact builds_importNames hR none s s' d halong h
    | some name =>
      have hk : s.here.kind ≠ .endOfInput := by
        intro hk
        rw [← hkind, hk] at hname
        cases hname
      rw [hname] at h
      dsimp only at h
      rw [run_advance] at h
      have hfirst : Along R [.binding ⟨name, s.here.span⟩] s s.next :=
        .token hR hk rfl rfl ⟨hk, hkind ▸ hname, rfl, rfl⟩
      have hrest : Builds R s₀ [.binding ⟨name, s.here.span⟩] (do
          if ← accept .comma then importNames (some ⟨name, s.here.span⟩)
          else return ⟨some ⟨name, s.here.span⟩, none, [], ← importFrom⟩) fun d => (Part.import_ d).parts := by
        refine .skip fun found => ?_
        split
        · exact builds_importNames hR (some _)
        · exact .skip fun path => .pure rfl
      exact hrest s.next s' d (halong.append hfirst) h

/-- An item before the end of the input takes at least one token. -/
theorem ended_item {s s' : ParserState} {i : Item} (hk : s.here.kind ≠ .endOfInput) (h : item s = .ok i s') :
    (Part.item i).Ended R s s' ∧ Consumed s s' := by
  obtain ⟨decs, s₁, ts, s₂, hdecs, hts, hread, hspan⟩ := item_eq_ok h
  have hbefore := (grows_decorators hR s s₁ decs hdecs).later hts
  have hparts : Along R (Part.ofItem i.shape) s s' := by
    generalize i.shape = shape at hread
    cases hread with
    | class_ hword hdecl => exact along_classDecl hR hbefore hword hdecl
    | import_ _ hword hdecl =>
      obtain ⟨us, hus⟩ := hbefore.passed
      refine Along.before hus (.single ⟨passed_of_ok hdecl, fun hs => ?_⟩ (hR ⟨trivial, nofun⟩ ?_))
      · exact took_of_advance hs (hword ▸ nofun) hdecl
      · exact grows_importDecl hR s₂ s' _ hdecl
    | other hskip =>
      obtain ⟨us, hus⟩ := passed_of_ok hskip
      exact (hbefore.later hus).sublist (List.nil_sublist _)
  -- At the end of the input nothing was left for the item itself, so its decorators or `export` were read.
  have hconsumed : Consumed s s' := by
    refine ⟨passed_of_ok h, fun hs => ?_⟩
    obtain ⟨us, hus⟩ := hbefore.passed
    by_cases hend : s₂.here.kind = .endOfInput
    · have hne : us ≠ [] := by
        rintro rfl
        exact hk ((List.cons.inj hus.tokens).1 ▸ hend)
      obtain ⟨vs, hvs⟩ := hread.passed
      exact ⟨us ++ vs, List.append_ne_nil_of_left_ne_nil hne vs, hus.trans hvs⟩
    · obtain ⟨vs, hne, hvs⟩ := hread.took (hus.sealed hs) hend
      exact ⟨us ++ vs, by simp [hne], hus.trans hvs⟩
  refine ⟨⟨hparts, ?_, trivial⟩, hconsumed⟩
  rintro _ ⟨⟩
  exact hspan

omit hR in
/-- An item before the end of the input spans the tokens it was read from. -/
theorem covers_item {s s' : ParserState} {i : Item} (hs : s.Sealed) (hk : s.here.kind ≠ .endOfInput)
    (h : item s = .ok i s') : Covers Item.span s i s' := by
  obtain ⟨hended, hconsumed⟩ := ended_item Reading.trivial hk h
  exact hended.covers (hconsumed.took hs) _ rfl

/-- Everything that is read up to the end of the input was read part by part. -/
theorem along_items {s s' : ParserState} {is : List Item} (h : items s = .ok is s') : Along R (is.map .item) s s' := by
  rw [List.map_eq_flatMap]
  refine Grows.collect (fun s s' r h => ?_) s s' is h
  rw [run_atEnd] at h
  by_cases hend : s.here.kind = .endOfInput
  · rw [decide_eq_true hend, if_pos rfl] at h
    obtain ⟨rfl, rfl⟩ := pure_eq_ok.mp h
    exact .refl s
  rw [decide_eq_false hend, if_neg Bool.false_ne_true] at h
  obtain ⟨o, s₁, ho, h⟩ := bind_eq_ok.mp h
  cases o with
  | some i =>
    obtain ⟨rfl, rfl⟩ := pure_eq_ok.mp h
    obtain ⟨hended, hconsumed⟩ := ended_item hR hend (attempt_eq_ok_some.mp ho)
    exact hended.single hR hconsumed
  | none =>
    obtain ⟨ts, hts⟩ := passed_of_ok ho
    obtain ⟨_, s₂, hskip, h⟩ := bind_eq_ok.mp h
    obtain ⟨us, hus⟩ := passed_of_ok hskip
    obtain ⟨rfl, rfl⟩ := pure_eq_ok.mp h
    exact .done (hts.trans hus)

end

end Parser

/-- The classes of a file are those among its items. -/
theorem SourceFile.mem_classes {file : SourceFile} {c : ClassDecl} :
    c ∈ file.classes ↔ ∃ i ∈ file.items, i.shape = .class_ c := by
  unfold SourceFile.classes
  rw [List.mem_filterMap]
  refine exists_congr fun i => and_congr_right fun _ => ?_
  cases i.shape <;> simp

end ContractCompiler
