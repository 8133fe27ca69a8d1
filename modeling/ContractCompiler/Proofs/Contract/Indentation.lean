import ContractCompiler.Contract.Members

/-!
# Indentation decides nothing

Whether a class can be written, why it cannot, and what is noted on the way depend neither on the text written per level nor
on anything else on the page. `Blind w` says this of the writing `w`, statement by statement and member by member; the
instances below make it a matter of how the writing is put together.
-/

namespace ContractCompiler

namespace Writing

variable {α β : Type}

/-- What comes of writing apart from the lines: how it ended, and what is noted on the page. -/
def told : EStateM.Result RenderError Page α → Except RenderError α × Journal
  | .ok a p => (.ok a, p.notes)
  | .error err p => (.error err, p.notes)

/-- On two pages with the same notes, the writing ends in the same way and notes the same, whatever else is on them. -/
class Blind (w : Writing RenderError α) : Prop where
  told_eq : ∀ p q : Page, p.notes = q.notes → told (w p) = told (w q)

/-- Writing that always goes on with the same value and notes nothing. -/
theorem Blind.of_told {w : Writing RenderError α} (value : Except RenderError α)
    (h : ∀ p, told (w p) = (value, p.notes)) : Blind w where
  told_eq p q hpq := by rw [h, h, hpq]

instance blind_pure (a : α) : Blind (pure a) := .of_told _ fun _ => rfl

instance blind_throw (err : RenderError) : Blind (throw err : Writing RenderError α) := .of_told _ fun _ => rfl

instance blind_line (text : String) : Blind (line text) := .of_told _ fun _ => rfl

instance blind_push (text : String) : Blind (push text) := by
  refine .of_told (.ok ()) fun p => ?_
  unfold push Page.append
  split <;> rfl

instance blind_note (event : Event) : Blind (note event) where
  told_eq p q hpq := by
    show (_, p.notes ++ [event]) = (_, q.notes ++ [event])
    rw [hpq]

instance blind_ofExcept (value : Except RenderError α) : Blind (ofExcept value) := by
  refine .of_told value fun p => ?_
  cases value <;> rfl

/-- The text of an expression and what is noted about it depend on no page. -/
instance blind_onPage (r : Rendering α) : Blind r.onPage where
  told_eq p q hpq := by
    unfold Rendering.onPage
    rw [hpq]
    cases r q.notes <;> rfl

instance blind_bind (w : Writing RenderError α) (k : α → Writing RenderError β) [hw : Blind w]
    [hk : ∀ a, Blind (k a)] : Blind (w >>= k) where
  told_eq p q hpq := by
    have hsame := hw.told_eq p q hpq
    show told (EStateM.bind w k p) = told (EStateM.bind w k q)
    unfold EStateM.bind
    cases hp : w p <;> cases hq : w q <;> rw [hp, hq] at hsame <;> simp only [told, Prod.mk.injEq] at hsame
    case ok.ok a p' b q' =>
      cases Except.ok.inj hsame.1
      exact (hk a).told_eq p' q' hsame.2
    case ok.error => cases hsame.1
    case error.ok => cases hsame.1
    case error.error =>
      cases Except.error.inj hsame.1
      simp only [told, hsame.2]

instance blind_indented (w : Writing RenderError α) [hw : Blind w] : Blind (indented w) where
  told_eq p q hpq := by
    have hsame := hw.told_eq { p with depth := p.depth + 1 } { q with depth := q.depth + 1 } hpq
    unfold indented
    cases hp : w { p with depth := p.depth + 1 } <;> cases hq : w { q with depth := q.depth + 1 } <;>
      rw [hp, hq] at hsame <;> exact hsame

variable (b : Bindings)

instance blind_pushExpr (e : Expr) : Blind (pushExpr b e) := by
  unfold pushExpr
  infer_instance

instance blind_declarator (d : Declarator) : Blind (declarator b d) := by
  unfold declarator
  split <;> infer_instance

instance blind_moreDeclarators (ds : List Declarator) : Blind (moreDeclarators b ds) := by
  induction ds with
  | nil => exact blind_pure ()
  | cons d ds ih =>
    unfold moreDeclarators
    infer_instance

instance blind_declarators (ds : List Declarator) : Blind (declarators b ds) := by
  cases ds with
  | nil => exact blind_pure ()
  | cons d ds =>
    unfold declarators
    infer_instance

instance blind_stmtPlaceholder (s : Stmt) : Blind (stmtPlaceholder b s) := by
  unfold stmtPlaceholder
  split <;> infer_instance

instance blind_start (place : Place) : Blind place.start := by
  cases place
  · exact blind_pure ()
  · exact blind_line ""

mutual

/-- A statement is written without regard to the page, one case for each kind of statement. -/
theorem blind_stmtAt (place : Place) (s : Stmt) : Blind (stmtAt b place s) := by
  cases s with
  | return_ span value =>
    unfold stmtAt
    cases value <;> infer_instance
  | if_ span cond thenBranch elseBranch =>
    have hthen := blind_stmtAt .branch thenBranch
    have helse := blind_elseAt elseBranch
    have hbranches : Blind (do
        indented (stmtAt b .branch thenBranch)
        line "\x7d"
        elseAt b elseBranch) := inferInstance
    unfold stmtAt
    infer_instance
  | while_ span cond body =>
    have hbody := blind_stmtAt .branch body
    unfold stmtAt
    infer_instance
  | block span ss =>
    have hstmts := blind_stmts ss
    unfold stmtAt
    cases place <;> infer_instance
  | var | expr | doWhile | for_ | forEach | break_ | continue_ | throw | empty =>
    unfold stmtAt
    infer_instance

/-- An `else` is written without a look at the page. -/
theorem blind_elseAt (branch : Option Stmt) : Blind (elseAt b branch) := by
  cases branch with
  | none => exact blind_pure ()
  | some s =>
    have hbranch := blind_stmtAt .branch s
    unfold elseAt
    infer_instance

theorem blind_stmts (ss : List Stmt) : Blind (stmts b ss) := by
  cases ss with
  | nil => exact blind_pure ()
  | cons s ss =>
    have hfirst := blind_stmtAt .lastLine s
    have hrest := blind_stmts ss
    unfold stmts
    infer_instance

end

instance blind_callable (name : String) (params : List Param) (returns : Option TypeExpr) (body : Option Block) :
    Blind (callable b name params returns body) := by
  have hstmts := blind_stmts b
  unfold callable
  cases body <;> infer_instance

instance blind_property (span : Span) (name : Ident) (type : Option TypeExpr) (init : Option Expr) :
    Blind (property b span name type init) := by
  unfold property
  cases type <;> cases init <;> infer_instance

instance blind_member (m : Member) : Blind (member b m) := by
  unfold member
  split <;> infer_instance

instance blind_members (ms : List Member) : Blind (members b ms) := by
  induction ms with
  | nil => exact blind_pure ()
  | cons m ms ih =>
    unfold members
    infer_instance

instance blind_contract (decl : ClassDecl) : Blind (contract b decl) := by
  unfold contract
  infer_instance

end Writing

/-- Two indentations give contracts of the same name, or the same failure. -/
theorem ClassDecl.render_indent (decl : ClassDecl) (b : Bindings) (unit unit' : String) :
    (decl.render unit b).map Contract.name = (decl.render unit' b).map Contract.name := by
  have hsame := (Writing.blind_contract b decl).told_eq (Page.blank unit) (Page.blank unit') rfl
  unfold ClassDecl.render
  cases h : Writing.contract b decl (Page.blank unit) <;> cases h' : Writing.contract b decl (Page.blank unit') <;>
    rw [h, h'] at hsame <;> simp only [Writing.told, Prod.mk.injEq] at hsame
  case ok.ok => rfl
  case ok.error => cases hsame.1
  case error.ok => cases hsame.1
  case error.error =>
    cases Except.error.inj hsame.1
    rfl

/-- Nor does the indentation change what is noted. -/
theorem ClassDecl.renderEvents_indent (decl : ClassDecl) (b : Bindings) (unit unit' : String) :
    decl.renderEvents unit b = decl.renderEvents unit' b := by
  have hsame := (Writing.blind_contract b decl).told_eq (Page.blank unit) (Page.blank unit') rfl
  have hnotes : ∀ unit, decl.renderEvents unit b = (Writing.told (Writing.contract b decl (Page.blank unit))).2 := by
    intro unit
    unfold ClassDecl.renderEvents
    cases Writing.contract b decl (Page.blank unit) <;> rfl
  rw [hnotes, hnotes, hsame]

end ContractCompiler
