import ContractCompiler.Proofs.Printing.Types
import ContractCompiler.Reading.Statements

/-!
# Writing and reading back statements

`Stmt.print` writes a statement as the kinds of its tokens, with semicolons as terminators. A statement that can be written is
read back where no `else` follows that it would take for its own. The induction is on the statement, with one lemma for each
form.
-/

namespace ContractCompiler

open ContractCompiler.Parser

/-! ## Tokens of a statement -/

/-- The kind of the token that declares variables of this kind. -/
def VarKind.kind : VarKind → TokenKind
  | .const => .keyword .const
  | .let_ => .keyword .let_
  | .var => .keyword .var

/-- The word that declares variables of a kind is read back. -/
theorem VarKind.varKind?_kind (kind : VarKind) : kind.kind.varKind? = some kind := by
  cases kind <;> rfl

/-- The kind of the token between the variable of a loop and what it goes through. -/
def Traversal.kind : Traversal → TokenKind
  | .values => .keyword .of
  | .keys => .keyword .in_

/-- An expression that is leveled and can be written. -/
def Expr.Written (e : Expr) : Prop := e.Leveled ∧ e.Printable

/-- Whether a name may be bound. -/
def Ident.isBinding (i : Ident) : Bool := (TokenKind.ofWord i.name).bindingName? == some i.name

namespace Declarator

/-- A declared variable without its spans. -/
def erase (d : Declarator) : Declarator := ⟨d.name.erase, d.type.map TypeExpr.erase, d.init.map Expr.erase, ⟨0, 0⟩⟩

/-- The kinds of the tokens of a declared variable. -/
def print (d : Declarator) : List TokenKind :=
  .ofWord d.name.name ::
    (TokenKind.clause .colon (d.type.map TypeExpr.print) ++ TokenKind.clause .eq (d.init.map Expr.print))

/-- The declared variable can be written. -/
structure Printable (d : Declarator) : Prop where
  name : d.name.isBinding = true
  type : ∀ t, d.type = some t → t.Printable
  init : ∀ e, d.init = some e → e.Written

end Declarator

namespace Stmt

mutual

/-- A statement without its spans. -/
@[simp]
def erase : Stmt → Stmt
  | .var _ kind decls => .var ⟨0, 0⟩ kind (decls.map Declarator.erase)
  | .expr _ e => .expr ⟨0, 0⟩ e.erase
  | .return_ _ value => .return_ ⟨0, 0⟩ (value.map Expr.erase)
  | .if_ _ cond thenBranch elseBranch => .if_ ⟨0, 0⟩ cond.erase thenBranch.erase (eraseOption elseBranch)
  | .while_ _ cond body => .while_ ⟨0, 0⟩ cond.erase body.erase
  | .doWhile _ body cond => .doWhile ⟨0, 0⟩ body.erase cond.erase
  | .for_ _ init test update body =>
    .for_ ⟨0, 0⟩ (eraseOption init) (test.map Expr.erase) (update.map Expr.erase) body.erase
  | .forEach _ kind binding traversal iterable body =>
    .forEach ⟨0, 0⟩ kind binding.erase traversal iterable.erase body.erase
  | .break_ _ => .break_ ⟨0, 0⟩
  | .continue_ _ => .continue_ ⟨0, 0⟩
  | .throw _ value => .throw ⟨0, 0⟩ value.erase
  | .block _ stmts => .block ⟨0, 0⟩ (eraseAll stmts)
  | .empty _ => .empty ⟨0, 0⟩

/-- An optional statement without its spans. -/
def eraseOption : Option Stmt → Option Stmt
  | none => none
  | some st => some st.erase

/-- Several statements without their spans. -/
def eraseAll : List Stmt → List Stmt
  | [] => []
  | st :: sts => st.erase :: eraseAll sts

end

mutual

/-- The kinds of the tokens of a statement. -/
@[simp]
def print : Stmt → List TokenKind
  | .var _ kind decls => kind.kind :: (TokenKind.commas (decls.map Declarator.print) ++ [.mark .semicolon])
  | .expr _ e => e.print ++ [.mark .semicolon]
  | .return_ _ value => .keyword .return_ :: (value.toList.flatMap Expr.print ++ [.mark .semicolon])
  | .if_ _ cond thenBranch elseBranch =>
    .keyword .if_ :: (TokenKind.parens cond.print ++ (thenBranch.print ++ printElse elseBranch))
  | .while_ _ cond body => .keyword .while_ :: (TokenKind.parens cond.print ++ body.print)
  | .doWhile _ body cond =>
    .keyword .do_ :: (body.print ++ .keyword .while_ :: (TokenKind.parens cond.print ++ [.mark .semicolon]))
  | .for_ _ init test update body =>
    .keyword .for_ :: .mark .lparen :: (printInit init ++ (test.toList.flatMap Expr.print ++
      .mark .semicolon :: (update.toList.flatMap Expr.print ++ .mark .rparen :: body.print)))
  | .forEach _ kind binding traversal iterable body =>
    .keyword .for_ :: .mark .lparen :: kind.kind :: .ofWord binding.name :: traversal.kind ::
      (iterable.print ++ .mark .rparen :: body.print)
  | .break_ _ => [.keyword .break_, .mark .semicolon]
  | .continue_ _ => [.keyword .continue_, .mark .semicolon]
  | .throw _ value => .keyword .throw :: (value.print ++ [.mark .semicolon])
  | .block _ stmts => .mark .lbrace :: (printAll stmts ++ [.mark .rbrace])
  | .empty _ => [.mark .semicolon]

/-- The kinds of the tokens of the other branch, if there is one. -/
def printElse : Option Stmt → List TokenKind
  | none => []
  | some st => .keyword .else_ :: st.print

/-- The kinds of the tokens of the initializer of a loop and the semicolon after it. -/
def printInit : Option Stmt → List TokenKind
  | none => [.mark .semicolon]
  | some st => st.print

/-- The kinds of the tokens of statements one after the other. -/
def printAll : List Stmt → List TokenKind
  | [] => []
  | st :: sts => st.print ++ printAll sts

end

/-- Several statements lose their spans one by one. -/
theorem eraseAll_eq_map (sts : List Stmt) : eraseAll sts = sts.map erase := by
  induction sts with
  | nil => rfl
  | cons st sts ih => rw [eraseAll, ih, List.map_cons]

/-- Several statements are written one after the other. -/
theorem printAll_eq_flatMap (sts : List Stmt) : printAll sts = sts.flatMap print := by
  induction sts with
  | nil => rfl
  | cons st sts ih => rw [printAll, ih, List.flatMap_cons]

mutual

/-- Whether the statement ends in an `if` that has no `else`, and would take one that follows for its own. -/
def endsOpen : Stmt → Bool
  | .if_ _ _ _ elseBranch => elseEndsOpen elseBranch
  | .while_ _ _ body | .for_ _ _ _ _ body | .forEach _ _ _ _ _ body => body.endsOpen
  | _ => false

/-- Whether an `if` with this other branch ends so. -/
def elseEndsOpen : Option Stmt → Bool
  | none => true
  | some st => st.endsOpen

end

/-- The statement may stand as the initializer of a loop. -/
inductive PrintableInit : Option Stmt → Prop where
  | absent : PrintableInit none
  | var {span : Span} {kind : VarKind} {decls : List Declarator} :
      decls ≠ [] → (∀ d ∈ decls, d.Printable) → PrintableInit (some (.var span kind decls))
  | expr {span : Span} {e : Expr} : e.Written → PrintableInit (some (.expr span e))

/-- The statement can be written: so can its expressions and annotations, it declares something if it declares variables, it does
not start as a block if it is an expression, and no `else` is put after a branch that would take it for its own. -/
inductive Printable : Stmt → Prop where
  | var {span : Span} {kind : VarKind} {decls : List Declarator} :
      decls ≠ [] → (∀ d ∈ decls, d.Printable) → Printable (.var span kind decls)
  | expr {span : Span} {e : Expr} : e.Written → e.print.head? ≠ some (.mark .lbrace) → Printable (.expr span e)
  | return_ {span : Span} {value : Option Expr} : (∀ e, value = some e → e.Written) → Printable (.return_ span value)
  | ifOnly {span : Span} {cond : Expr} {thenBranch : Stmt} :
      cond.Written → thenBranch.Printable → Printable (.if_ span cond thenBranch none)
  | ifElse {span : Span} {cond : Expr} {thenBranch elseBranch : Stmt} :
      cond.Written → thenBranch.Printable → thenBranch.endsOpen = false → elseBranch.Printable →
        Printable (.if_ span cond thenBranch (some elseBranch))
  | while_ {span : Span} {cond : Expr} {body : Stmt} : cond.Written → body.Printable → Printable (.while_ span cond body)
  | doWhile {span : Span} {body : Stmt} {cond : Expr} : body.Printable → cond.Written → Printable (.doWhile span body cond)
  | for_ {span : Span} {init : Option Stmt} {test update : Option Expr} {body : Stmt} :
      PrintableInit init → (∀ e, test = some e → e.Written) → (∀ e, update = some e → e.Written) → body.Printable →
        Printable (.for_ span init test update body)
  | forEach {span : Span} {kind : VarKind} {binding : Ident} {traversal : Traversal} {iterable : Expr} {body : Stmt} :
      binding.isBinding = true → iterable.Written → body.Printable →
        Printable (.forEach span kind binding traversal iterable body)
  | break_ (span : Span) : Printable (.break_ span)
  | continue_ (span : Span) : Printable (.continue_ span)
  | throw {span : Span} {value : Expr} : value.Written → Printable (.throw span value)
  | block {span : Span} {stmts : List Stmt} : (∀ st ∈ stmts, st.Printable) → Printable (.block span stmts)
  | empty (span : Span) : Printable (.empty span)

end Stmt

/-! ## Expressions in statements -/

namespace Expr.Written

variable {e : Expr} {n : Nat} {s' : ParserState}

/-- The tokens of an expression start as those of an expression may. -/
theorem opening (h : e.Written) : ∃ k, e.print.head? = some k ∧ k.opensExpr = true := by
  obtain ⟨k, hk, hopens, -⟩ := h.1.opening h.2
  exact ⟨k, hk, hopens⟩

theorem opens_ne (h : e.Written) {l : TokenKind} (hl : l.opensExpr = false) : ∃ k, e.print.head? = some k ∧ k ≠ l := by
  obtain ⟨k, hk, hopens⟩ := h.opening
  exact ⟨k, hk, TokenKind.ne_of_opensExpr hopens hl⟩

/-- An expression before a bracket, a comma or a semicolon. -/
theorem retraces (h : e.Written) {mark : Mark} (hmark : s'.here.kind = .mark mark)
    (hends : mark ∈ [.rparen, .rbracket, .rbrace, .comma, .colon, .semicolon]) :
    Retraces n expression e.print s' fun e' => e'.erase = e.erase := h.1.retraces h.2 (stopsExpr_of_mark hmark hends)

/-- A condition is read back in its parentheses. -/
theorem retraces_condition (h : e.Written) {construct : Construct} :
    Retraces n (condition construct) (TokenKind.parens e.print) s' fun e' => e'.erase = e.erase :=
  .expect (.before (fun _ hs₁ => h.retraces hs₁ (by decide)) fun _ he' => .expect (.pure he'))

end Expr.Written

/-- What starts an expression declares no variable. -/
theorem TokenKind.varKind?_of_opensExpr {k : TokenKind} (h : k.opensExpr = true) : k.varKind? = none := by
  unfold varKind?
  split <;> first | rfl | cases h

/-- A name that may be bound is read as one. -/
theorem Ident.isBinding.bindingName? {i : Ident} (h : i.isBinding = true) :
    (TokenKind.ofWord i.name).bindingName? = some i.name := eq_of_beq h

/-- Before an optional clause the mark of the clause stands, or what comes after it. -/
theorem TokenKind.first_clause (mark : Mark) (o : Option (List TokenKind)) {ks kinds : List TokenKind} {s' : ParserState}
    (h : first ks s' ∈ kinds) : first (clause mark o ++ ks) s' ∈ .mark mark :: kinds := by
  cases o with
  | none => exact List.mem_cons_of_mem _ h
  | some _ => exact List.mem_cons_self

/-! ## Declared variables -/

namespace Declarator

variable {n : Nat} {s' : ParserState}

/-- The initializer of a variable before a comma or a semicolon. -/
theorem retraces_init {init : Option Expr} (h : ∀ e, init = some e → e.Written)
    (hend : s'.here.kind ∈ [.mark .comma, .mark .semicolon]) :
    Retraces n (after .eq expression) (TokenKind.clause .eq (init.map Expr.print)) s' fun o =>
      o.map Expr.erase = init.map Expr.erase := by
  simp only [List.mem_cons, List.not_mem_nil, or_false] at hend
  refine .clause (fun e he => ?_) fun _ => ?_
  · rcases hend with hend | hend <;> exact (h e he).retraces hend (by decide)
  · rcases hend with hend | hend <;> simp [hend]

/-- The annotation of a variable before its initializer or the end of its declaration. -/
theorem retraces_type {type : Option TypeExpr} (h : ∀ t, type = some t → t.Printable)
    (hend : s'.here.kind ∈ [.mark .eq, .mark .comma, .mark .semicolon]) :
    Retraces n annotation (TokenKind.clause .colon (type.map TypeExpr.print)) s' fun o =>
      o.map TypeExpr.erase = type.map TypeExpr.erase := by
  simp only [List.mem_cons, List.not_mem_nil, or_false] at hend
  refine .clause (fun t ht => (h t ht).retraces ?_) fun _ => ?_
  · rcases hend with hend | hend | hend <;> rw [hend] <;> decide
  · rcases hend with hend | hend | hend <;> simp [hend]

/-- A declared variable before a comma or a semicolon. -/
theorem Printable.retraces {d : Declarator} (h : d.Printable) (hend : s'.here.kind ∈ [.mark .comma, .mark .semicolon]) :
    Retraces n declarator d.print s' fun d' => d'.erase = d.erase := by
  have hname := Ident.isBinding.bindingName? h.name
  have hinit := TokenKind.first_clause .eq (d.init.map Expr.print) (show TokenKind.first [] s' ∈ _ from hend)
  rw [List.append_nil] at hinit
  have htype := TokenKind.first_clause .colon (d.type.map TypeExpr.print) hinit
  refine .here fun token htoken => ?_
  have htoken : token.kind = .ofWord d.name.name := htoken
  have hplain : ¬(token.kind = .mark .lbrace || token.kind = .mark .lbracket) = true := by
    intro hbracket
    simp only [Bool.or_eq_true, decide_eq_true_eq] at hbracket
    rw [← htoken] at hname
    rcases hbracket with hbracket | hbracket <;> rw [hbracket] at hname <;> cases hname
  dsimp only
  rw [if_neg hplain]
  refine .identBy hname (TokenKind.ofWord_ne_end _) fun i hi => .without ?_
    (.bind (fun s₁ hs₁ => retraces_type h.type (hs₁ ▸ hinit)) fun type htype => .last (retraces_init h.init hend)
      fun init hinit => .spanFrom fun span => .pure ?_)
  · exact fun hbang => absurd (hbang ▸ htype) (by decide)
  · rw [erase, erase, htype, hinit, Ident.erase, hi]
    rfl

/-- Declared variables before a semicolon. -/
theorem retraces_declarators {ds : List Declarator} (hne : ds ≠ []) (h : ∀ d ∈ ds, d.Printable)
    (hend : s'.here.kind = .mark .semicolon) :
    Retraces n declarators (TokenKind.commas (ds.map print)) s' fun ds' => ds'.map erase = ds.map erase := by
  rw [← List.append_nil (TokenKind.commas _)]
  refine .separated hne (fun d hd => ?_) fun d hd s₁ => ?_
  · rw [List.append_nil]
    refine .last ((h d hd).retraces (by simp [hend])) fun d' hd' => .refuse ?_ (.pure ⟨d', rfl, hd'⟩)
    rw [TokenKind.first, List.headD_nil, hend]
    simp
  · exact .before (fun s₂ hs₂ => (h d hd).retraces (by simp [hs₂])) fun d' hd' =>
      .accept (by simp) (.pure ⟨d', rfl, hd'⟩)

/-- After the first name comes no word, so that the declaration is not taken for a loop over a collection. -/
theorem kindAt_one {ds : List Declarator} (hne : ds ≠ []) (ks : List TokenKind) :
    ∃ k : TokenKind, (TokenKind.commas (ds.map print) ++ TokenKind.mark .semicolon :: ks)[1]? = some k ∧
      ¬(k = .keyword .of || k = .keyword .in_) = true := by
  cases ds with
  | nil => exact absurd rfl hne
  | cons d ds =>
    obtain ⟨name, type, init, span⟩ := d
    cases type with
    | some t => cases ds <;> exact ⟨.mark .colon, rfl, by decide⟩
    | none =>
      cases init with
      | some e => cases ds <;> exact ⟨.mark .eq, rfl, by decide⟩
      | none =>
        cases ds with
        | nil => exact ⟨.mark .semicolon, rfl, by decide⟩
        | cons d ds => exact ⟨.mark .comma, rfl, by decide⟩

end Declarator

/-! ## Reading statements back -/

namespace Stmt

/-- The statement is read back, where no `else` follows that it would take for its own. -/
def Legible (st : Stmt) : Prop := ∀ n s', (st.endsOpen = true → s'.here.kind ≠ .keyword .else_) →
  Retraces n (stmtWithin n) st.print s' fun st' => st'.erase = st.erase

/-- A statement starts neither as the end of a block nor as another branch. -/
theorem Printable.opening {st : Stmt} (h : st.Printable) :
    ∃ k, st.print.head? = some k ∧ k ∉ [.mark .rbrace, .keyword .else_, .endOfInput] := by
  cases h with
  | var => exact ⟨_, rfl, by rename_i kind _ _ _; cases kind <;> decide⟩
  | expr he =>
    obtain ⟨k, hk, hopens⟩ := he.opening
    refine ⟨k, by rw [print, List.head?_append, hk, Option.some_or], fun hmem => ?_⟩
    simp only [List.mem_cons, List.not_mem_nil, or_false] at hmem
    rcases hmem with rfl | rfl | rfl <;> cases hopens
  | _ => exact ⟨_, rfl, by decide⟩

variable {span : Span}

/-- It is enough to look at a statement with the statements inside it read with one token less ahead. -/
theorem Legible.of_layer {st : Stmt} (h : ∀ n s', (st.endsOpen = true → s'.here.kind ≠ .keyword .else_) →
    Retraces (n + 1) (stmtLayer (stmtWithin n)) st.print s' fun st' => st'.erase = st.erase) : st.Legible := by
  intro n s' hopen
  cases n with
  | zero => exact fun s _ hn => absurd hn (Nat.not_lt_zero _)
  | succ n => exact h n s' hopen

/-- A variable statement is read back if its variables are. -/
theorem legible_var {kind : VarKind} {decls : List Declarator} (hne : decls ≠ []) (h : ∀ d ∈ decls, d.Printable) :
    (Stmt.var span kind decls).Legible := by
  refine .of_layer fun n s' _ => .here fun token htoken => ?_
  have htoken : token.kind = kind.kind := htoken
  have hbind : Retraces (n + 1) (do
      advance
      let decls ← declarators
      terminator
      return Stmt.var (← spanFrom token.span.start) kind decls)
      (Stmt.var span kind decls).print s' fun st' => st'.erase = (Stmt.var span kind decls).erase := by
    refine .advance (by cases kind <;> simp [VarKind.kind]) (.before
      (fun s₁ hs₁ => Declarator.retraces_declarators hne h hs₁) fun ds hds => .terminator (.spanFrom fun span' => .pure ?_))
    rw [erase, erase, hds]
  rw [htoken]
  cases kind <;> exact hbind

/-- An expression statement is read back if it does not start as a block. -/
theorem legible_expr {e : Expr} (h : e.Written) (hbrace : e.print.head? ≠ some (.mark .lbrace)) :
    (Stmt.expr span e).Legible := by
  refine .of_layer fun n s' _ => .here fun token htoken => ?_
  obtain ⟨k, hk, hopens⟩ := h.opening
  have hread : Retraces (n + 1) (do
      let e ← expression
      terminator
      return Stmt.expr (← spanFrom token.span.start) e)
      (Stmt.expr span e).print s' fun st' => st'.erase = (Stmt.expr span e).erase := by
    refine .before (fun s₁ hs₁ => h.retraces hs₁ (by decide)) fun e' he' => .terminator (.spanFrom fun span' => .pure ?_)
    rw [erase, erase, he']
  rw [TokenKind.first_of_head? (k := k) (by rw [print, List.head?_append, hk, Option.some_or])] at htoken
  have hvar := TokenKind.varKind?_of_opensExpr hopens
  have hne : k ≠ .mark .lbrace := by
    rintro rfl
    exact hbrace hk
  rw [htoken]
  dsimp only
  split
  case h_11 => rwa [hvar]
  case h_1 => exact absurd rfl hne
  all_goals cases hopens

/-- A `return` is read back with its value. -/
theorem legible_return {value : Option Expr} (h : ∀ e, value = some e → e.Written) : (Stmt.return_ span value).Legible := by
  refine .of_layer fun n s' _ => .here fun token htoken => ?_
  rw [htoken]
  refine .here fun first _ => ?_
  cases value with
  | none =>
    refine .advanceOnLine (by simp) fun next hnext _ => ?_
    rw [if_pos (by simp [hnext])]
    exact .pureBind <| .terminator (.spanFrom fun span' => .pure rfl)
  | some e =>
    obtain ⟨k, hk, hopens⟩ := (h e rfl).opening
    obtain ⟨ks, hks⟩ := List.head?_eq_some_iff.mp hk
    rw [print, Option.toList_some, List.flatMap_singleton, hks, List.cons_append]
    -- A value on the next line would not be read, so the line of the first token of `e` matters.
    refine .advanceOnLine (by simp) fun next hnext hline => ?_
    have hvalue : ¬(next.afterBreak || next.kind = .mark .semicolon || next.kind = .mark .rbrace ||
        next.kind = .endOfInput) = true := by
      have hne : ∀ {l : TokenKind}, l.opensExpr = false → next.kind ≠ l := fun hl => hnext ▸ TokenKind.ne_of_opensExpr hopens hl
      simp only [hline, Bool.false_or, Bool.or_eq_true, decide_eq_true_eq, not_or]
      exact ⟨⟨hne rfl, hne rfl⟩, hne rfl⟩
    rw [if_neg hvalue, ← List.cons_append, ← hks]
    refine .mapSome (.before (fun s₁ hs₁ => (h e rfl).retraces hs₁ (by decide)) fun e' he' =>
      .terminator (.spanFrom fun span' => .pure ?_))
    rw [erase, erase, Option.map_some, Option.map_some, he']

/-- An `if` without an `else` is read back. -/
theorem legible_ifOnly {cond : Expr} {thenBranch : Stmt} (hcond : cond.Written) (hthen : thenBranch.Legible) :
    (Stmt.if_ span cond thenBranch none).Legible := by
  refine .of_layer fun n s' hopen => .here fun token htoken => ?_
  rw [htoken]
  refine .here fun first _ => .advance_succ (by simp) (.bind (fun s₁ _ => hcond.retraces_condition) fun cond' hcond' =>
    .bind (fun s₁ hs₁ => hthen n s₁ fun _ => ?_) fun then' hthen' => .acceptElse (hopen rfl) ?_)
  · rw [hs₁]
    exact hopen rfl
  · refine .pureBind (.spanFrom fun span' => .pure ?_)
    rw [erase, erase, hcond', hthen']

/-- An `if` with an `else` is read back if its first branch does not take the `else`. -/
theorem legible_ifElse {cond : Expr} {thenBranch elseBranch : Stmt} (hcond : cond.Written) (hthen : thenBranch.Legible)
    (hclosed : thenBranch.endsOpen = false) (helse : elseBranch.Legible) :
    (Stmt.if_ span cond thenBranch (some elseBranch)).Legible := by
  refine .of_layer fun n s' hopen => .here fun token htoken => ?_
  rw [htoken]
  refine .here fun first _ => .advance_succ (by simp) (.bind (fun s₁ _ => hcond.retraces_condition) fun cond' hcond' =>
    .bind (fun s₁ hs₁ => hthen n s₁ fun hends => ?_) fun then' hthen' => .acceptThen (by simp) (.mapSome
      (.last (helse n s' hopen) fun else' helse' => .spanFrom fun span' => .pure ?_)))
  -- The `else` is not taken by the branch before it, which does not end in an `if` that lacks one.
  · rw [hclosed] at hends
    cases hends
  · rw [erase, erase, hcond', hthen', eraseOption, eraseOption, helse']

/-- A `while` is read back. -/
theorem legible_while {cond : Expr} {body : Stmt} (hcond : cond.Written) (hbody : body.Legible) :
    (Stmt.while_ span cond body).Legible := by
  refine .of_layer fun n s' hopen => .here fun token htoken => ?_
  rw [htoken]
  refine .advance_succ (by simp) (.bind (fun s₁ _ => hcond.retraces_condition) fun cond' hcond' =>
    .last (hbody n s' hopen) fun body' hbody' => .spanFrom fun span' => .pure ?_)
  rw [erase, erase, hcond', hbody']

/-- A `do` is read back. -/
theorem legible_doWhile {body : Stmt} {cond : Expr} (hbody : body.Legible) (hcond : cond.Written) :
    (Stmt.doWhile span body cond).Legible := by
  refine .of_layer fun n s' hopen => .here fun token htoken => ?_
  rw [htoken]
  refine .here fun first _ => .advance_succ (by simp) (.before (fun s₁ hs₁ => hbody n s₁ fun _ => ?_) fun body' hbody' =>
    .expectWord (.before (fun s₁ _ => hcond.retraces_condition) fun cond' hcond' =>
      .discard (by simp) (.spanFrom fun span' => .pure ?_)))
  · rw [hs₁]
    simp
  · rw [erase, erase, hbody', hcond']

/-- A `break` is read back. -/
theorem legible_break : (Stmt.break_ span).Legible := by
  refine .of_layer fun n s' hopen => .here fun token htoken => ?_
  rw [htoken]
  exact .advance (by simp) (.terminator (.spanFrom fun span' => .pure rfl))

/-- A `continue` is read back. -/
theorem legible_continue : (Stmt.continue_ span).Legible := by
  refine .of_layer fun n s' hopen => .here fun token htoken => ?_
  rw [htoken]
  exact .advance (by simp) (.terminator (.spanFrom fun span' => .pure rfl))

/-- A `throw` is read back with its value. -/
theorem legible_throw {value : Expr} (h : value.Written) : (Stmt.throw span value).Legible := by
  refine .of_layer fun n s' hopen => .here fun token htoken => ?_
  rw [htoken]
  refine .advance (by simp) (.before (fun s₁ hs₁ => h.retraces hs₁ (by decide)) fun value' hvalue' =>
    .terminator (.spanFrom fun span' => .pure ?_))
  rw [erase, erase, hvalue']

/-- An empty statement is read back. -/
theorem legible_empty : (Stmt.empty span).Legible := by
  refine .of_layer fun n s' hopen => .here fun token htoken => ?_
  rw [htoken]
  exact .advance (by simp) (.spanFrom fun span' => .pure rfl)

/-- Statements up to the brace that closes their block. -/
theorem retraces_stmts {stmts : List Stmt} (hprint : ∀ st ∈ stmts, st.Printable) (h : ∀ st ∈ stmts, st.Legible) {n : Nat}
    {s' : ParserState} : Retraces n (stmtsUpToBrace (stmtWithin n)) (stmts.flatMap print ++ [TokenKind.mark .rbrace]) s' fun sts =>
      sts.map erase = stmts.map erase := by
  refine .collect (fun k => k ≠ .keyword .else_) (fun st hst => ?_) (by simp [TokenKind.first]) (fun st hst s₁ hs₁ => ?_)
    (.notAtEnd (by simp [TokenKind.first]) (.acceptThen (by simp) (.pure rfl)))
  · obtain ⟨k, hk, hne⟩ := (hprint st hst).opening
    exact ⟨k, hk, fun helse => hne (by simp [helse])⟩
  · obtain ⟨k, hk, hne⟩ := (hprint st hst).opening
    have hfirst := TokenKind.first_of_head? hk s₁
    refine .notAtEnd (fun hend => hne (by simp [← hfirst, hend])) (.acceptElse (fun hbrace => hne (by simp [← hfirst, hbrace]))
      (.last (h st hst n s₁ fun _ => hs₁).attempt fun o ho => ?_))
    obtain ⟨st', rfl, hst'⟩ := ho
    exact .pure ⟨st', rfl, hst'⟩

/-- A block is read back if its statements are. -/
theorem legible_block {stmts : List Stmt} (hprint : ∀ st ∈ stmts, st.Printable) (h : ∀ st ∈ stmts, st.Legible) :
    (Stmt.block span stmts).Legible := by
  refine .of_layer fun n s' hopen => .here fun token htoken => ?_
  rw [htoken, print, printAll_eq_flatMap]
  have hblock : Retraces (n + 1) (blockOf (stmtWithin n)) (.mark .lbrace :: (stmts.flatMap print ++ [TokenKind.mark .rbrace])) s'
      fun b => b.stmts.map erase = stmts.map erase :=
    .here fun first _ => .expect_succ (.last (retraces_stmts hprint h) fun sts hsts => .spanFrom fun span' => .pure hsts)
  refine .last hblock fun b hb => .pure ?_
  rw [erase, erase, eraseAll_eq_map, eraseAll_eq_map, hb]

/-! ### Loops -/

/-- What follows the initializer of a loop. -/
theorem retraces_forTail {init init' : Option Stmt} {test update : Option Expr} {body : Stmt}
    (hinit : eraseOption init' = eraseOption init) (htest : ∀ e, test = some e → e.Written)
    (hupdate : ∀ e, update = some e → e.Written) (hbody : body.Legible) {n start : Nat} {s' : ParserState}
    (hopen : body.endsOpen = true → s'.here.kind ≠ .keyword .else_) :
    Retraces n (forTail (stmtWithin n) start init') (.mark .semicolon :: (test.toList.flatMap Expr.print ++
      .mark .semicolon :: (update.toList.flatMap Expr.print ++ .mark .rparen :: body.print))) s' fun st' =>
        st'.erase = (Stmt.for_ span init test update body).erase := by
  refine .expect (.unlessAt (fun e he => (htest e he).opens_ne rfl)
    (fun e he s₁ hs₁ => (htest e he).retraces hs₁ (by decide)) fun test' htest' => .expect
      (.unlessAt (fun e he => (hupdate e he).opens_ne rfl)
        (fun e he s₁ hs₁ => (hupdate e he).retraces hs₁ (by decide)) fun update' hupdate' => .expect
          (.last (hbody n s' hopen) fun body' hbody' => .spanFrom fun span' => .pure ?_)))
  rw [erase, erase, hinit, htest', hupdate', hbody']

/-- A counting `for` is read back with its header and its body. -/
theorem legible_for {init : Option Stmt} {test update : Option Expr} {body : Stmt} (hinit : PrintableInit init)
    (htest : ∀ e, test = some e → e.Written) (hupdate : ∀ e, update = some e → e.Written) (hbody : body.Legible) :
    (Stmt.for_ span init test update body).Legible := by
  refine .of_layer fun n s' hopen => .here fun token htoken => ?_
  rw [htoken, print]
  refine .here fun first _ => .advance_succ (by simp) (.expect (.here fun second hsecond => ?_))
  cases hinit with
  | absent =>
    rw [hsecond]
    exact retraces_forTail rfl htest hupdate hbody hopen
  | @var _ kind decls hne hdecls =>
    have hsecond : second.kind = kind.kind := hsecond
    rw [hsecond, kind.varKind?_kind, printInit, print, List.cons_append, List.append_assoc, List.singleton_append]
    -- The token after the first name decides between this loop and one over a collection.
    obtain ⟨k, hk, hword⟩ := Declarator.kindAt_one hne (test.toList.flatMap Expr.print ++
      .mark .semicolon :: (update.toList.flatMap Expr.print ++ .mark .rparen :: body.print))
    refine .advance (by cases kind <;> simp [VarKind.kind]) (.kindAt hk ?_)
    rw [if_neg hword]
    refine .before (fun s₁ hs₁ => Declarator.retraces_declarators hne hdecls hs₁) fun decls' hdecls' =>
      .spanFrom fun span' => retraces_forTail ?_ htest hupdate hbody hopen
    rw [eraseOption, eraseOption, erase, erase, hdecls']
  | @expr _ e he =>
    obtain ⟨k, hk, hopens⟩ := he.opening
    rw [TokenKind.first_of_head? (k := k) (by simp [printInit, print, hk])] at hsecond
    rw [hsecond, TokenKind.varKind?_of_opensExpr hopens, if_neg (TokenKind.ne_of_opensExpr hopens rfl), printInit, print,
      List.append_assoc, List.singleton_append]
    refine .before (fun s₁ hs₁ => he.retraces hs₁ (by decide)) fun e' he' =>
      retraces_forTail ?_ htest hupdate hbody hopen
    rw [eraseOption, eraseOption, erase, erase, he']

/-- A `for` over a collection is read back. -/
theorem legible_forEach {kind : VarKind} {binding : Ident} {traversal : Traversal} {iterable : Expr} {body : Stmt}
    (hbinding : binding.isBinding = true) (hiterable : iterable.Written) (hbody : body.Legible) :
    (Stmt.forEach span kind binding traversal iterable body).Legible := by
  refine .of_layer fun n s' hopen => .here fun token htoken => ?_
  rw [htoken, print]
  refine .here fun first _ => .advance_succ (by simp) (.expect (.here fun second hsecond => ?_))
  have hsecond : second.kind = kind.kind := hsecond
  rw [hsecond, kind.varKind?_kind]
  have htail : ∀ traversal', traversal' = traversal → ∀ binding' : Ident, binding'.name = binding.name → Retraces n (do
      let iterable ← expression
      expect .rparen .forEachClose
      let body ← stmtWithin n
      return Stmt.forEach (← spanFrom first.span.start) kind binding' traversal' iterable body)
      (iterable.print ++ .mark .rparen :: body.print) s' fun st' =>
        st'.erase = (Stmt.forEach span kind binding traversal iterable body).erase := by
    intro traversal' htraversal binding' hname
    refine .before (fun s₁ hs₁ => hiterable.retraces hs₁ (by decide)) fun iterable' hiterable' => .expect
      (.last (hbody n s' hopen) fun body' hbody' => .spanFrom fun span' => .pure ?_)
    rw [erase, erase, htraversal, hiterable', hbody', Ident.erase, hname]
    rfl
  refine .advance (by cases kind <;> simp [VarKind.kind]) (.kindAt (k := traversal.kind) rfl ?_)
  rw [if_pos (by cases traversal <;> rfl)]
  refine .identBy (Ident.isBinding.bindingName? hbinding) (TokenKind.ofWord_ne_end _) fun binding' hname => ?_
  cases traversal with
  | values => exact .acceptThen (by simp) (.pureBind (htail .values rfl binding' hname))
  | keys =>
    refine .acceptElse (by simp [TokenKind.first, Traversal.kind]) ?_
    exact .advance (by simp [Traversal.kind]) (.pureBind (htail .keys rfl binding' hname))

/-- A statement that can be written is read back. -/
theorem Printable.legible {st : Stmt} (h : st.Printable) : st.Legible := by
  induction h with
  | var hne hdecls => exact legible_var hne hdecls
  | expr he hbrace => exact legible_expr he hbrace
  | return_ hvalue => exact legible_return hvalue
  | ifOnly hcond _ hthen => exact legible_ifOnly hcond hthen
  | ifElse hcond _ hclosed _ hthen helse => exact legible_ifElse hcond hthen hclosed helse
  | while_ hcond _ hbody => exact legible_while hcond hbody
  | doWhile _ hcond hbody => exact legible_doWhile hbody hcond
  | for_ hinit htest hupdate _ hbody => exact legible_for hinit htest hupdate hbody
  | forEach hbinding hiterable _ hbody => exact legible_forEach hbinding hiterable hbody
  | break_ span => exact legible_break
  | continue_ span => exact legible_continue
  | throw hvalue => exact legible_throw hvalue
  | block hstmts ih => exact legible_block hstmts ih
  | empty span => exact legible_empty

end Stmt

/-- Reading is the inverse of writing for statements: where a statement is written on one line and followed by a token that is no
`else`, such as a closing brace, reading a statement moves over exactly its tokens, records nothing, and gives the statement up
to spans. -/
theorem statement_reads_back {st : Stmt} (hprint : st.Printable) {ts rest : List Token} {stop : Token}
    (hts : LaidOut ts st.print) (hstop : stop.kind ≠ .keyword .else_) {s : ParserState}
    (hs : s.here :: s.ahead = ts ++ stop :: rest) :
    ∃ st', statement s = .ok st' { s with behind := ts.reverse ++ s.behind, here := stop, ahead := rest } ∧
      st'.erase = st.erase := by
  have hspelled : Spelled s st.print { s with behind := ts.reverse ++ s.behind, here := stop, ahead := rest } :=
    ⟨ts, ⟨rfl, hs, rfl, rfl⟩, hts⟩
  exact hprint.legible _ _ (fun _ => hstop) s hspelled (Nat.lt_succ_self s.ahead.length)

/-- The statement `for (let i: (A<B<number>> | number)[] = f, j; i < n; i++) if (a) do { return; if (b) ; } while (c); else for
(const k of m) throw e;`. -/
def nestedLoop : Stmt :=
  let span : Span := ⟨0, 0⟩
  let name (text : String) : Expr := .ident ⟨text, span⟩
  let number : TypeExpr := .keyword span .number
  let generic (text : String) (arg : TypeExpr) : TypeExpr := .named span [⟨text, span⟩] [arg]
  .for_ span
    (some (.var span .let_
      [⟨⟨"i", span⟩, some (.array span (.union span [generic "A" (generic "B" number), number])), some (name "f"), span⟩,
        ⟨⟨"j", span⟩, none, none, span⟩]))
    (some (.binary span .lt (name "i") (name "n"))) (some (.update span .increment false (name "i")))
    (.if_ span (name "a")
      (.doWhile span (.block span [.return_ span none, .if_ span (name "b") (.empty span) none]) (name "c"))
      (some (.forEach span .const ⟨"k", span⟩ .values (name "m") (.throw span (name "e")))))

/-- The statement `nestedLoop` is read back. -/
theorem nestedLoop_reads_back :
    let row := Token.row 1 nestedLoop.print
    let stop : Token := ⟨.mark .rbrace, ⟨80, 81⟩, false⟩
    ∃ st', statement ⟨Cursor.start (row ++ [stop]), [], []⟩ = .ok st' ⟨⟨row.reverse, stop, []⟩, [], []⟩ ∧
      st'.erase = nestedLoop.erase := by
  have names : ∀ text ∈ ["a", "b", "c", "e", "f", "i", "m", "n"], (Expr.ident ⟨text, ⟨0, 0⟩⟩).Written :=
    fun text htext => ⟨.ident _, (by decide : ∀ text ∈ ["a", "b", "c", "e", "f", "i", "m", "n"],
      (Expr.ident ⟨text, ⟨0, 0⟩⟩).Printable) text htext⟩
  have hnumber : (TypeExpr.keyword ⟨0, 0⟩ .number).Printable := .keyword _ _
  have hgeneric : ∀ text ∈ ["A", "B"], ∀ {arg : TypeExpr}, arg.Printable →
      (TypeExpr.named ⟨0, 0⟩ [⟨text, ⟨0, 0⟩⟩] [arg]).Printable := fun text htext arg harg =>
    .named ((by decide : ∀ text ∈ ["A", "B"], TypeExpr.isTypeName text = true) text htext) (by simpa using harg)
  have hprint : nestedLoop.Printable := by
    refine .for_ (.var (by simp) ?_) ?_ ?_ (.ifElse (names _ (by simp)) (.doWhile (.block ?_) (names _ (by simp))) rfl
      (.forEach (by decide) (names _ (by simp)) (.throw (names _ (by simp)))))
    · refine List.forall_mem_cons.mpr ⟨⟨by decide, ?_, ?_⟩, List.forall_mem_singleton.mpr ⟨by decide, by simp, by simp⟩⟩
      · rintro _ ⟨⟩
        refine .array (.union (List.forall_mem_cons.mpr ⟨?_, List.forall_mem_singleton.mpr hnumber⟩))
        exact hgeneric "A" (by simp) (hgeneric "B" (by simp) hnumber)
      · rintro _ ⟨⟩
        exact names "f" (by simp)
    · rintro _ ⟨⟩
      exact ⟨.operation rfl (names "i" (by simp)).1 (by decide) (names "n" (by simp)).1 (by decide), by decide⟩
    · rintro _ ⟨⟩
      exact ⟨.trailing (names "i" (by simp)).1 (by decide), by decide⟩
    · exact List.forall_mem_cons.mpr ⟨.return_ (by simp), List.forall_mem_singleton.mpr
        (.ifOnly (names "b" (by simp)) (.empty _))⟩
  exact statement_reads_back hprint (laidOut_row _ 1) (by simp) rfl

end ContractCompiler
