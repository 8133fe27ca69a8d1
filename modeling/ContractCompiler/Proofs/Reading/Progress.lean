import ContractCompiler.Proofs.Reading.DeclarationParts
import ContractCompiler.Proofs.Reading.Settling

/-!
# The grammar settles

No parser of the grammar reaches its bound (`settles_items`). A loop ends because every round but the last takes a token.
That of the statements of a block and that of the members of a class do so even where nothing could be read: what is skipped
instead may stop before a closing brace, but a round that skips did not start before one. Types, expressions and statements
end because they take a token before they come to what stands inside them.
-/

namespace ContractCompiler.Parser

variable {α : Type} {k : Nat}

/-! ## Lists -/

/-- A round of `listUpTo`. -/
def listRound (close : Mark) (separator : Missing) (item : Parser α) : Parser (List α × Bool) := do
  if ← accept close then return ([], false)
  let a ← item
  if ← accept close then return ([a], false)
  expect .comma separator
  return ([a], true)

/-- A round that is followed by another one takes a token. -/
theorem takes_listRound (close : Mark) (separator : Missing) (item : Parser α) :
    Takes (fun r => r.2 = true) (listRound close separator item) := by
  refine .later fun _ => .ite (.pure (by simp)) (.later fun a => .later fun _ => .ite (.pure (by simp)) ?_)
  exact .first (.expect .comma separator)

section Lists

variable (p : Parser α) [Settles k p]

instance settles_listUpTo (close : Mark) (separator : Missing) :
    Settles k (listUpTo close separator p) := by
  refine settles_collect ?_ (takes_listRound close separator p)
  infer_instance

instance settles_someUpTo (close : Mark) (separator : Missing) :
    Settles k (someUpTo close separator p) := by
  refine settles_collect ?_ (.later fun a => .later fun _ => .ite (.pure (by simp)) (.first (.expect .comma separator)))
  infer_instance

end Lists

instance settles_dottedFrom (first : Ident) (what : Missing) : Settles k (dottedFrom first what) := by
  refine .bind (settles_collect ?_ (.accept (.pure (by simp)))) fun more => ?_
  · infer_instance
  · infer_instance

/-- Moving on by at least one token takes one. -/
theorem took_advanceBy {n : Nat} {f : Unit → Parser α} {s s' : ParserState} {a : α} (hs : s.Sealed)
    (hk : s.here.kind ≠ .endOfInput) (h : (advanceBy (n + 1) >>= f) s = .ok a s') : Took s s' :=
  Took.bind h fun _ _ ha => took_of_advance (q := fun _ => advanceBy n) hs hk ha

/-! ## Types -/

section Types

variable (p : Parser TypeExpr) [Settles k p]

instance starts_namedType : Starts k (namedType p) :=
  (Starts.identBy rfl _).bind fun _ => inferInstance

instance starts_primaryType : Starts k (primaryType p) := by
  refine .token fun s hs hlength => ?_
  cases hword : s.here.kind.typeKeyword? with
  | some word =>
    refine .advance (fun hend => ?_) (settles_pure _) hs hlength
    rw [hend] at hword
    cases hword
  | none => exact (Starts.accept inferInstance (starts_namedType p)).startsAt s hs hlength

instance starts_arrayType : Starts k (arrayType p) := by
  refine .after (fun _ => settles_here) fun _ => .bind (starts_primaryType p) fun elem => settles_chain (fun type => ?_) ?_ elem
  · infer_instance
  · intro type s s' next hs h hsome
    rw [run_check, run_kindAt] at h
    split at h
    · rename_i hpair
      simp only [Bool.and_eq_true, decide_eq_true_eq] at hpair
      exact took_advanceBy hs (by simp [hpair.1]) h
    · obtain ⟨rfl, -⟩ := pure_eq_ok.mp h
      cases hsome

instance starts_unionType : Starts k (unionType p) := by
  refine .after (fun _ => settles_here) fun _ => .after (fun _ => inferInstance) fun _ => ?_
  refine .bind (starts_arrayType p) fun first => ?_
  have hmore : Settles k (collect do if ← accept .pipe then return ([← arrayType p], true) else return ([], false)) :=
    settles_collect inferInstance (.accept (.pure (by simp)))
  infer_instance

end Types

instance settles_typeExpr : Settles k typeExpr := by
  refine settles_bounded (p := fun n _ => typeWithin n) (fun n k hinner _ => ?_) ()
  have := hinner ()
  exact starts_unionType (typeWithin n)

instance settles_annotation : Settles k annotation := settles_after _

/-! ## Expressions -/

instance settles_memberSuffix (target : Expr) : Settles k (memberSuffix target) := by
  unfold memberSuffix
  infer_instance

section Expressions

variable (p : ExprForm → Parser Expr) [∀ form, Settles k (p form)]

/-- A round of `arguments`. -/
def argumentRound (inner : ExprForm → Parser Expr) : Parser (List Expr × Bool) := do
  match ← attempt (inner .assignment) with
  | none => return ([], false)
  | some arg =>
    if ← accept .rparen then return ([arg], false)
    if ← accept .comma then
      return ([arg], !(← accept .rparen))
    else
      recordMissing .argSeparator
      return ([arg], false)

/-- A round of the arguments that is followed by another one takes a token. -/
theorem takes_argumentRound : Takes (fun r => r.2 = true) (argumentRound p) := by
  refine .later fun arg => ?_
  cases arg with
  | none => exact .pure (by simp)
  | some arg =>
    refine .later fun _ => .ite (.pure (by simp)) (.accept (.later fun _ => .pure (by simp)))

instance settles_arguments : Settles k (arguments p) := by
  refine .bind (settles_accept _) fun _ => .ite (settles_pure _) ?_
  refine settles_collect ?_ (takes_argumentRound p)
  refine .bind inferInstance fun arg => ?_
  cases arg <;> infer_instance

instance settles_callSuffix (target : Expr) : Settles k (callSuffix p target) := by
  unfold callSuffix
  infer_instance

instance settles_indexSuffix (target : Expr) : Settles k (indexSuffix p target) := by
  unfold indexSuffix
  infer_instance

instance settles_optionalLink (target : Expr) : Settles k (optionalLink p target) := by
  refine .bind (settles_kindAt 1) fun kind => ?_
  dsimp only
  split <;> infer_instance

instance settles_suffix? (target : Expr) : Settles k (suffix? p target) := by
  refine .bind settles_here fun t => ?_
  split <;> infer_instance

/-- What comes after `?.` takes a token. -/
theorem took_optionalLink {target e : Expr} {s s' : ParserState} (hs : s.Sealed) (hk : s.here.kind ≠ .endOfInput)
    (h : optionalLink p target s = .ok e s') : Took s s' := by
  rw [optionalLink, run_kindAt] at h
  generalize s.kindAt 1 = kind at h
  dsimp only at h
  split at h
  · exact took_advanceBy hs hk h
  · exact took_advanceBy hs hk h
  · exact Took.bind h fun _ _ => took_of_advance hs hk

theorem takes_suffix? (target : Expr) : Takes (fun e => e.isSome = true) (suffix? p target) := by
  intro s s' e hs h hsome
  rw [suffix?, run_here] at h
  generalize hk : s.here.kind = kind at h
  split at h
  · exact Took.bind h fun _ _ => took_optionalLink p hs (by simp [hk])
  · split at h
    · obtain ⟨rfl, -⟩ := pure_eq_ok.mp h
      cases hsome
    · exact took_of_advance hs (by simp [hk]) h
  · exact took_of_advance hs (by simp [hk]) h
  · exact Took.bind h fun _ _ => took_of_advance hs (by simp [hk])
  · exact took_of_advance hs (by simp [hk]) h
  · obtain ⟨rfl, -⟩ := pure_eq_ok.mp h
    cases hsome

theorem takes_dotted (target : Expr) : Takes (fun e => e.isSome = true) (do
    if ← check (.mark .dot) then return some (← memberSuffix target) else return none) := by
  intro s s' e hs h hsome
  rw [run_check] at h
  split at h
  · rename_i hdot
    exact Took.bind h fun _ _ => took_of_advance hs (by simp [of_decide_eq_true hdot])
  · obtain ⟨rfl, -⟩ := pure_eq_ok.mp h
    cases hsome

/-- `new` takes a token, and needs no more than the tokens ahead. -/
theorem startsAt_newExpr {s : ParserState} (hs : s.Ready) (hlength : s.ahead.length ≤ k)
    (hk : s.here.kind ≠ .endOfInput) : StartsAt (newExpr p) s := by
  refine .advance hk ?_ hs hlength
  refine .bind inferInstance fun primary => ?_
  refine .bind (settles_chain (fun target => ?_) takes_dotted primary) fun callee => ?_
  · infer_instance
  · infer_instance

instance settles_field : Settles k (field p) := by
  unfold field
  infer_instance

instance starts_primaryExpr : Starts k (primaryExpr p) := by
  refine .token fun s hs hlength => ?_
  generalize hk : s.here.kind = kind
  cases hvalue : kind.literal? with
  | some value =>
    refine .advance (fun hend => ?_) (settles_pure _) hs hlength
    rw [← hk, hend] at hvalue
    cases hvalue
  | none =>
    dsimp only
    split
    · exact .advance (by simp [hk]) inferInstance hs hlength
    · exact .advance (by simp [hk]) inferInstance hs hlength
    · exact startsAt_newExpr p hs hlength (by simp [hk])
    · exact .advance (by simp [hk]) inferInstance hs hlength
    · exact .advance (by simp [hk]) inferInstance hs hlength
    · exact .advance (by simp [hk]) inferInstance hs hlength
    · exact (Starts.bind (.identBy rfl _) fun _ => inferInstance).startsAt s hs hlength

instance starts_postfixExpr : Starts k (postfixExpr p) :=
  .bind (starts_primaryExpr p) fun e => settles_chain (fun _ => inferInstance) (takes_suffix? p) e

instance starts_unaryExpr : Starts k (unaryExpr p) := by
  refine .token fun s hs hlength => ?_
  generalize hk : s.here.kind = kind
  dsimp only
  split
  · rename_i op _ hop
    refine .advance (fun hend => ?_) inferInstance hs hlength
    rw [← hk, hend] at hop
    cases hop
  · rename_i op _ hop
    refine .advance (fun hend => ?_) inferInstance hs hlength
    rw [← hk, hend] at hop
    cases hop
  · refine ((starts_postfixExpr p).bind fun e => .bind settles_here fun next => ?_).startsAt s hs hlength
    split <;> infer_instance

instance starts_exponentExpr : Starts k (exponentExpr p) :=
  .bind (starts_unaryExpr p) fun _ => inferInstance

end Expressions

instance settles_asTarget : Settles k asTarget := by
  unfold asTarget
  infer_instance

instance settles_assertion? (left : Expr) : Settles k (assertion? left) := by
  unfold assertion?
  infer_instance

/-- An assertion takes a token. -/
theorem takes_assertion? (left : Expr) : Takes (fun e => e.isSome = true) (assertion? left) := by
  intro s s' e hs h hsome
  rw [assertion?, run_here] at h
  split at h
  · obtain ⟨rfl, -⟩ := pure_eq_ok.mp h
    cases hsome
  · split at h
    · rename_i hk
      exact took_of_advance hs (by simp [hk]) h
    · split at h
      · rename_i hk
        exact took_of_advance hs (by simp [hk]) h
      · obtain ⟨rfl, -⟩ := pure_eq_ok.mp h
        cases hsome

/-- Moving over an operator takes a token. -/
theorem took_operator {op : BinaryOp} {s s' : ParserState} {u : Unit} (hs : s.Sealed) (hkinds : op.kinds <+: s.kinds)
    (h : advanceBy op.kinds.length s = .ok u s') : Took s s' := by
  obtain ⟨ts, hts, hspelled⟩ := Got.advanceBy hs hkinds op.end_not_mem_kinds h
  refine ⟨ts, ?_, hts⟩
  rintro rfl
  have hnil := hspelled false (by simp)
  cases op <;> simp [BinaryOp.kinds] at hnil

section Operations

variable (tier : Tier) (p : Parser Expr) [Settles k p]

instance settles_operation? (left : Expr) : Settles k (operation? tier p left) := by
  refine .bind settles_get fun s => ?_
  split <;> infer_instance

/-- An operation takes a token. -/
theorem takes_operation? (left : Expr) : Takes (fun e => e.isSome = true) (operation? tier p left) := by
  intro s s' e hs h hsome
  rw [operation?, run_get] at h
  cases hop : s.binaryOp? tier with
  | none =>
    rw [hop] at h
    obtain ⟨rfl, -⟩ := pure_eq_ok.mp h
    cases hsome
  | some found =>
    obtain ⟨op, len⟩ := found
    rw [hop] at h
    obtain ⟨hkinds, rfl, -⟩ := Cursor.binaryOp?_eq_some hop
    exact Took.bind h fun _ _ => took_operator hs hkinds

instance settles_tierStep (left : Expr) : Settles k (tierStep tier p left) := by
  refine .ite ?_ (settles_operation? tier p left)
  refine .bind (settles_assertion? left) fun e => ?_
  cases e <;> infer_instance

/-- Whatever follows an operand in its tier takes a token. -/
theorem takes_tierStep (left : Expr) : Takes (fun e => e.isSome = true) (tierStep tier p left) := by
  refine .ite ?_ (takes_operation? tier p left)
  intro s s' e hs h hsome
  obtain ⟨asserted, s₁, hasserted, h⟩ := bind_eq_ok.mp h
  cases asserted with
  | some e' =>
    obtain ⟨-, rfl⟩ := pure_eq_ok.mp h
    exact takes_assertion? left s s₁ _ hs hasserted rfl
  | none =>
    obtain ⟨ts, hts⟩ := passed_of_ok hasserted
    obtain ⟨us, hne, hus⟩ := takes_operation? tier p left s₁ s' e (hts.sealed hs) h hsome
    exact ⟨ts ++ us, by simp [hne], hts.trans hus⟩

end Operations

section Layers

variable (p : ExprForm → Parser Expr) [∀ form, Settles k (p form)]

instance starts_binaryExpr (tiers : List Tier) : Starts k (binaryExpr p tiers) := by
  induction tiers with
  | nil => exact starts_exponentExpr p
  | cons tier tighter ih =>
    exact .bind ih fun left => settles_chain (fun _ => inferInstance) (takes_tierStep tier _) left

instance starts_conditionalExpr : Starts k (conditionalExpr p) :=
  .bind (starts_binaryExpr p Tier.all) fun _ => inferInstance

instance starts_assignmentExpr : Starts k (assignmentExpr p) := by
  refine (starts_conditionalExpr p).bind fun left => .bind settles_get fun s => ?_
  split <;> infer_instance

/-- An expression takes a token, whatever its form. -/
theorem starts_exprLayer (form : ExprForm) : Starts k (exprLayer p form) := by
  cases form with
  | assignment => exact starts_assignmentExpr p
  | exponent => exact starts_exponentExpr p
  | unary => exact starts_unaryExpr p
  | primary => exact starts_primaryExpr p

end Layers

instance settles_exprOf (form : ExprForm) : Settles k (exprOf form) :=
  settles_bounded (fun n _ _ form => starts_exprLayer (exprWithin n) form) form

instance settles_expression : Settles k expression := settles_exprOf .assignment

theorem starts_expression : Starts k expression := by
  refine .of_settles (fun _ => settles_expression) fun s s' e hs h _ => ?_
  obtain ⟨ts, hts, hphrase⟩ := got_expression hs h
  exact ⟨ts, (hphrase false (by simp)).ne_nil, hts⟩

instance settles_decoratorArgs : Settles k decoratorArgs := settles_arguments _

/-! ## Statements -/

instance settles_terminator : Settles k terminator := by
  unfold terminator
  infer_instance

instance settles_condition (construct : Construct) : Settles k (condition construct) := by
  unfold condition
  infer_instance

instance settles_declarator : Settles k declarator := by
  unfold declarator
  dsimp only
  infer_instance

/-- A round of `declarators`. -/
def declaratorRound : Parser (List Declarator × Bool) := do
  let decl ← declarator
  return ([decl], ← accept .comma)

/-- A round of the variables that is followed by another one takes a token. -/
theorem takes_declaratorRound : Takes (fun r => r.2 = true) declaratorRound := by
  refine .later fun decl => ?_
  intro s s' r hs h hmore
  obtain ⟨comma, s₁, hcomma, h⟩ := bind_eq_ok.mp h
  obtain ⟨rfl, rfl⟩ := pure_eq_ok.mp h
  exact Takes.acceptKind (by simp) s s₁ comma hs hcomma hmore

instance settles_declarators : Settles k declarators := by
  refine settles_collect ?_ takes_declaratorRound
  infer_instance

instance settles_returnStmt : Settles k returnStmt := by
  refine .bind settles_here fun _ => .bind settles_advance fun _ => .bind settles_here fun _ => .ite ?_ ?_
  · infer_instance
  · infer_instance

/-- A round of `stmtsUpToBrace`. -/
def stmtRound (inner : Parser Stmt) : Parser (List Stmt × Bool) := do
  if ← atEnd then return ([], false)
  if ← accept .rbrace then return ([], false)
  match ← attempt inner with
  | some stmt => return ([stmt], true)
  | none =>
    skip Cursor.stmtStep ()
    discard (accept .semicolon)
    return ([], true)

/-- The skipped rest of a malformed statement has a token, if the statement stopped before none of `}` and the end. -/
theorem took_stmtRecovery {s s₁ s₂ : ParserState} {u u' : Unit} (hs : s.Sealed) (hend : s.here.kind ≠ .endOfInput)
    (hbrace : s.here.kind ≠ .mark .rbrace) (hskip : skip Cursor.stmtStep () s = .ok u s₁)
    (hsemicolon : discard (accept .semicolon) s₁ = .ok u' s₂) : Took s s₂ := by
  obtain ⟨us, hus⟩ := passed_of_ok hsemicolon
  by_cases hk : s.here.kind = .mark .semicolon
  · -- nothing is skipped, and the semicolon is read after it
    obtain ⟨found, hfound, -⟩ := map_eq_ok.mp hsemicolon
    have hstay : s₁ = s := by
      obtain ⟨ts, hskips⟩ := skips_of_skip hs hskip
      cases hskips with
      | ended | left => rfl
      | last _ hstep | took _ hstep =>
        rw [hk] at hstep
        cases hstep
    subst hstay
    rcases acceptKind_eq_ok.mp hfound with ⟨-, -, rfl⟩ | ⟨hne, -⟩
    · exact took_here hs hend
    · exact absurd hk hne
  · refine (took_skip hs hend ?_ hskip).trans hus
    unfold Cursor.stmtStep
    split
    · contradiction
    · contradiction
    · simp

/-- A round that is the last one at the end of the input. -/
theorem takes_unlessAtEnd {round : Parser (List α × Bool)}
    (h : ∀ s s' r, s.Sealed → s.here.kind ≠ .endOfInput → round s = .ok r s' → r.2 = true → Took s s') :
    Takes (fun r => r.2 = true) (do if ← atEnd then return ([], false) else round) := by
  intro s s' r hs hround hmore
  rw [run_atEnd] at hround
  by_cases hend : s.here.kind = .endOfInput
  · rw [decide_eq_true hend, if_pos rfl] at hround
    obtain ⟨rfl, -⟩ := pure_eq_ok.mp hround
    cases hmore
  · rw [decide_eq_false hend, if_neg Bool.false_ne_true] at hround
    exact h s s' r hs hend hround hmore

/-- A round that is the last one before a closing brace. -/
theorem took_unlessBrace {round : Parser (List α × Bool)} {s s' : ParserState} {r : List α × Bool} (hmore : r.2 = true)
    (hround : (do if ← accept .rbrace then return ([], false) else round) s = .ok r s')
    (h : s.here.kind ≠ .mark .rbrace → round s = .ok r s' → Took s s') : Took s s' := by
  rw [run_accept] at hround
  by_cases hbrace : s.here.kind = .mark .rbrace
  · rw [if_pos hbrace, if_pos rfl] at hround
    obtain ⟨rfl, -⟩ := pure_eq_ok.mp hround
    cases hmore
  · rw [if_neg hbrace, if_neg Bool.false_ne_true] at hround
    exact h hbrace hround

/-- A round that attempts to read something and recovers if it cannot takes a token, if what it read did or the recovery
does from where the round started. -/
theorem took_of_attempt {β : Type} {p : Parser α} {next : Option α → Parser β}
    {s s' : ParserState} {b : β} (hs : s.Sealed) (hp : ∀ a s₁, p s = .ok a s₁ → Took s s₁)
    (hnone : ∀ s₁, s₁.Sealed → s₁.here = s.here → next none s₁ = .ok b s' → Took s₁ s')
    (h : (attempt p >>= next) s = .ok b s') : Took s s' := by
  obtain ⟨o, s₁, ho, h⟩ := bind_eq_ok.mp h
  obtain ⟨us, hus⟩ := passed_of_ok h
  cases o with
  | some a => exact (hp a s₁ (attempt_eq_ok_some.mp ho)).trans hus
  | none =>
    obtain ⟨ts, hts⟩ := passed_of_ok ho
    by_cases hne : ts = []
    · subst hne
      obtain ⟨vs, hne, hvs⟩ := hnone s₁ (hts.sealed hs) (List.cons.inj hts.tokens).1.symm h
      exact ⟨vs, hne, hts.trans hvs⟩
    · exact Took.trans ⟨ts, hne, hts⟩ hus

section Statements

variable (p : Parser Stmt) [Settles k p] (htakes : Takes (fun _ => True) p)

include htakes

/-- A round of the statements that is followed by another one takes a token. -/
theorem takes_stmtRound : Takes (fun r => r.2 = true) (stmtRound p) := by
  refine takes_unlessAtEnd fun s s' r hs hend h hmore => took_unlessBrace hmore h fun hbrace h => ?_
  refine took_of_attempt hs
    (fun stmt s₁ hstmt => htakes s s₁ stmt hs hstmt trivial) (fun s₁ hs₁ hhere hrest => ?_) h
  obtain ⟨_, s₂, hskip, hrest⟩ := bind_eq_ok.mp hrest
  obtain ⟨_, s₃, hsemicolon, hrest⟩ := bind_eq_ok.mp hrest
  obtain ⟨-, rfl⟩ := pure_eq_ok.mp hrest
  exact took_stmtRecovery hs₁ (hhere ▸ hend) (hhere ▸ hbrace) hskip hsemicolon

/-- So the statements of a block need no more than the tokens ahead. -/
theorem settles_stmtsUpToBrace : Settles k (stmtsUpToBrace p) := by
  refine settles_collect ?_ (takes_stmtRound p htakes)
  refine .bind settles_atEnd fun _ => .ite (settles_pure _) ?_
  refine .bind (settles_accept _) fun _ => .ite (settles_pure _) ?_
  refine .bind inferInstance fun stmt => ?_
  cases stmt <;> infer_instance

/-- A block takes a token. -/
theorem starts_blockOf : Starts k (blockOf p) := by
  have hstmts := settles_stmtsUpToBrace p htakes (k := k)
  exact .after (fun _ => settles_here) fun _ => .bind (.expect _ _) fun _ => inferInstance

omit htakes

instance settles_forEachTail (start : Nat) (kind : VarKind) : Settles k (forEachTail p start kind) := by
  refine .bind (settles_bindingIdent _) fun _ => .bind (settles_acceptWord _) fun _ => .ite ?_ (.bind settles_advance fun _ => ?_)
  · infer_instance
  · infer_instance

instance settles_forTail (start : Nat) (init : Option Stmt) : Settles k (forTail p start init) := by
  -- the update and the body, whatever the test
  have rest : ∀ test : Option Expr, Settles k (do
      expect .semicolon .forTestEnd
      let update ← if ← check (.mark .rparen) then pure none else some <$> expression
      expect .rparen .forClose
      let body ← p
      return Stmt.for_ (← spanFrom start) init test update body) := by
    intro test
    refine .bind (settles_expect _ _) fun _ => .bind (settles_check _) fun _ => .ite ?_ ?_
    · infer_instance
    · infer_instance
  refine .bind (settles_expect _ _) fun _ => .bind (settles_check _) fun _ => .ite ?_ ?_
  · exact .bind (settles_pure none) rest
  · exact .bind (settles_map some) rest

section Words

variable {s : ParserState} (hs : s.Ready) (hlength : s.ahead.length ≤ k) (hk : s.here.kind ≠ .endOfInput)

include hs hlength hk

theorem startsAt_forStmt : StartsAt (forStmt p) s := by
  refine .advance hk (.bind (settles_expect _ _) fun _ => .bind settles_here fun t => ?_) hs hlength
  split <;> infer_instance

theorem startsAt_ifStmt : StartsAt (ifStmt p) s := StartsAt.advance hk inferInstance hs hlength

theorem startsAt_doStmt : StartsAt (doStmt p) s := StartsAt.advance hk inferInstance hs hlength

end Words

include htakes in
theorem starts_stmtLayer : Starts k (stmtLayer p) := by
  refine .token fun s hs hlength => ?_
  generalize hk : s.here.kind = kind
  dsimp only
  split
  · exact ((starts_blockOf p htakes).bind fun _ => inferInstance).startsAt s hs hlength
  · exact .advance (by simp [hk]) inferInstance hs hlength
  · exact .advance (by simp [hk]) inferInstance hs hlength
  · exact startsAt_ifStmt p hs hlength (by simp [hk])
  · exact .advance (by simp [hk]) inferInstance hs hlength
  · exact startsAt_doStmt p hs hlength (by simp [hk])
  · exact startsAt_forStmt p hs hlength (by simp [hk])
  · exact .advance (by simp [hk]) inferInstance hs hlength
  · exact .advance (by simp [hk]) inferInstance hs hlength
  · exact .advance (by simp [hk]) inferInstance hs hlength
  · cases hvar : kind.varKind? with
    | some varKind =>
      refine .advance (fun hend => ?_) inferInstance hs hlength
      rw [← hk, hend] at hvar
      cases hvar
    | none => exact (starts_expression.bind fun _ => inferInstance).startsAt s hs hlength

end Statements

/-- However deep it may be, a statement takes a token. -/
theorem takes_stmtWithin (n : Nat) : Takes (fun _ => True) (stmtWithin n) := by
  intro s s' stmt hs h _
  obtain ⟨ts, hne, hts, -⟩ := spans_stmtWithin n s s' stmt hs h
  exact ⟨ts, hne, hts⟩

instance settles_statement : Settles k statement := by
  refine settles_bounded (p := fun n _ => stmtWithin n) (fun n k hinner _ => ?_) ()
  have := hinner ()
  exact starts_stmtLayer (stmtWithin n) (takes_stmtWithin n)

/-- A statement takes a token. -/
theorem takes_statement : Takes (fun _ => True) statement := fun s s' stmt hs h => takes_stmtWithin _ s s' stmt hs h

instance settles_block : Settles k block := @settles_of_starts _ _ _ (starts_blockOf statement takes_statement)

/-! ## Classes -/

/-- A round of the modifiers that is followed by another one takes a token. -/
theorem takes_modifierRound : Takes (fun r => r.2 = true) (do
    match (← get).modifier? with
    | some m =>
      advance
      return ([m], true)
    | none => return ([], false)) := by
  intro s s' r hs h hmore
  rw [run_get] at h
  cases hm : s.modifier? with
  | some m =>
    rw [hm] at h
    refine took_of_advance hs (fun hend => ?_) h
    simp [Cursor.modifier?, hend] at hm
  | none =>
    rw [hm] at h
    obtain ⟨rfl, -⟩ := pure_eq_ok.mp h
    cases hmore

instance settles_modifiers : Settles k modifiers := by
  refine settles_collect ?_ takes_modifierRound
  refine .bind settles_get fun s => ?_
  split <;> infer_instance

instance settles_decorators : Settles k decorators := by
  refine settles_collect ?_ (.later fun t => ?_)
  · refine .bind settles_here fun t => .bind (settles_accept _) fun _ => ?_
    refine .ite (.bind inferInstance fun name => ?_) (settles_pure _)
    cases name <;> infer_instance
  · exact .accept (.pure (by simp))

instance settles_param : Settles k param := by
  unfold param
  dsimp only
  infer_instance

instance settles_params : Settles k params := settles_listUpTo _ _ _

instance settles_body : Settles k body := by
  unfold body
  infer_instance

instance settles_accessor (kind : AccessorKind) : Settles k (accessor kind) := by
  unfold accessor
  infer_instance

instance settles_indexSignature : Settles k indexSignature := by
  refine .bind settles_advance fun _ => .bind (settles_bindingIdent _) fun _ => .bind (settles_expect _ _) fun _ => ?_
  infer_instance

instance settles_namedMember : Settles k namedMember := by
  have rest : ∀ name, Settles k (do
      if (← check (.mark .lparen)) || (← check (.mark .lt)) then
        skipAngles
        expect .lparen .methodParams
        let ps ← params
        let returns ← annotation
        return MemberShape.method name ps returns (← body)
      else
        let type ← annotation
        let init ← after .eq expression
        terminator
        return MemberShape.property name type init) := by
    intro name
    refine .bind (settles_check _) fun _ => .bind (settles_check _) fun _ => .ite ?_ ?_
    · infer_instance
    · infer_instance
  refine .bind (settles_declaredIdent _) fun name => .bind (settles_accept _) fun _ => .ite ?_ ?_
  · exact rest name
  · exact .bind settles_discard fun _ => rest name

instance settles_memberShape : Settles k memberShape := by
  refine .bind (settles_kindAt 1) fun next => .bind settles_here fun t => ?_
  split <;> infer_instance

instance settles_member : Settles k member := by
  unfold member
  dsimp only
  infer_instance

/-- A round of `members`. -/
def memberRound : Parser (List Member × Bool) := do
  if ← atEnd then return ([], false)
  if ← accept .rbrace then return ([], false)
  if ← accept .semicolon then return ([], true)
  match ← attempt member with
  | some m => return ([m], true)
  | none =>
    skip Cursor.memberStep 0
    return ([], true)

/-- A round of the members that is followed by another one takes a token. -/
theorem takes_memberRound : Takes (fun r => r.2 = true) memberRound := by
  refine takes_unlessAtEnd fun s s' r hs hend h hmore => took_unlessBrace hmore h fun hbrace h => ?_
  rw [run_accept] at h
  by_cases hsemicolon : s.here.kind = .mark .semicolon
  · rw [if_pos hsemicolon, if_pos rfl] at h
    obtain ⟨-, rfl⟩ := pure_eq_ok.mp h
    exact took_here hs hend
  rw [if_neg hsemicolon, if_neg Bool.false_ne_true] at h
  refine took_of_attempt hs (fun m s₁ hm => ?_)
    (fun s₁ hs₁ hhere hrest => ?_) h
  · obtain ⟨ts, hne, hts, -⟩ := spans_member s s₁ m hs hm
    exact ⟨ts, hne, hts⟩
  · -- before a brace or a semicolon nothing would be skipped, but a round that gets here starts before neither
    obtain ⟨_, s₂, hskip, hrest⟩ := bind_eq_ok.mp hrest
    obtain ⟨-, rfl⟩ := pure_eq_ok.mp hrest
    rw [← hhere] at hend hbrace hsemicolon
    refine took_skip hs₁ hend ?_ hskip
    unfold Cursor.memberStep
    split
    · simp
    · contradiction
    · contradiction
    · simp

instance settles_members : Settles k members := by
  refine settles_collect ?_ takes_memberRound
  refine .bind settles_atEnd fun _ => .ite (settles_pure _) ?_
  refine .bind (settles_accept _) fun _ => .ite (settles_pure _) ?_
  refine .bind (settles_accept _) fun _ => .ite (settles_pure _) ?_
  refine .bind inferInstance fun m => ?_
  cases m <;> infer_instance

instance settles_baseClass : Settles k baseClass := by
  unfold baseClass
  infer_instance

instance settles_classDecl (decs : List Decorator) (isAbstract : Bool) (start : Nat) :
    Settles k (classDecl decs isAbstract start) := by
  refine .bind settles_advance fun _ => .bind (settles_bindingIdent _) fun _ => .bind settles_skipAngles fun _ => ?_
  infer_instance

/-! ## Items -/

instance settles_importPath (what : Missing) : Settles k (importPath what) := by
  refine .bind settles_here fun t => ?_
  split <;> infer_instance

instance settles_importFrom : Settles k importFrom := by
  unfold importFrom
  infer_instance

instance settles_importSpecifier : Settles k importSpecifier := by
  unfold importSpecifier
  infer_instance

instance settles_importNames (default : Option Ident) : Settles k (importNames default) := by
  unfold importNames
  infer_instance

instance settles_importDecl : Settles k importDecl := by
  refine .bind settles_advance fun _ => .bind settles_get fun s => ?_
  dsimp only
  refine .ite (.bind settles_advance fun _ => ?_) ?_
  all_goals
    refine .bind settles_here fun t => ?_
    split
    · infer_instance
    · split <;> infer_instance

instance settles_item : Settles k item := by
  refine .bind settles_here fun first => .bind settles_decorators fun decs => ?_
  refine .bind (settles_acceptWord _) fun exported => ?_
  dsimp only
  refine .ite (.bind inferInstance fun _ => ?_) ?_
  all_goals
    refine .bind (settles_kindAt 1) fun next => .bind settles_here fun t => ?_
    split <;> infer_instance

/-- A round of `items`. -/
def itemRound : Parser (List Item × Bool) := do
  if ← atEnd then return ([], false)
  match ← attempt item with
  | some i => return ([i], true)
  | none =>
    skip Cursor.otherStep .fresh
    return ([], true)

/-- A round of the items that is followed by another one takes a token. -/
theorem takes_itemRound : Takes (fun r => r.2 = true) itemRound := by
  refine takes_unlessAtEnd fun s s' r hs hend h hmore => ?_
  refine took_of_attempt hs (fun i s₁ hi => ?_)
    (fun s₁ hs₁ hhere hrest => ?_) h
  · obtain ⟨ts, hne, hts, -⟩ := covers_item hs hend hi
    exact ⟨ts, hne, hts⟩
  · obtain ⟨_, s₂, hskip, hrest⟩ := bind_eq_ok.mp hrest
    obtain ⟨-, rfl⟩ := pure_eq_ok.mp hrest
    exact took_skipOther hs₁ (hhere ▸ hend) hskip

instance settles_items : Settles k items := by
  refine settles_collect ?_ takes_itemRound
  refine .bind settles_atEnd fun _ => .ite (settles_pure _) ?_
  refine .bind inferInstance fun i => ?_
  cases i <;> infer_instance

end ContractCompiler.Parser
