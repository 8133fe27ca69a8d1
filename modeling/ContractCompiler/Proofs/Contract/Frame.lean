import ContractCompiler.Contract.Members

/-!
# What writing leaves as it was

Writing may fail anywhere, with lines half written and several levels deep. Whether it does or not, the page it leaves behind has
the indentation and the depth of the page it started on, and the lines of that page in front: `Preserves R w` says so of the
writing `w`. A list of statements, a callable and a member only add lines (`R` is `<+:`); a single statement goes on with the line
that was started for it, so that it may also continue the last line (`R` is `Continued`).
-/

namespace ContractCompiler

namespace Page

/-- All lines but the last are still there, and so is the last one, with some text behind it and lines after it. -/
def Continued (before now : List String) : Prop :=
  ∀ front last, before = front ++ [last] → ∃ addition more, now = front ++ (last ++ addition) :: more

/-- The page has the indentation and the depth it had before, and its lines come of the earlier ones as `R` says. -/
structure Preserved (R : List String → List String → Prop) (before now : Page) : Prop where
  unit : now.unit = before.unit
  depth : now.depth = before.depth
  lines : R before.lines now.lines

/-- Lines that were added continue those before them. -/
theorem continued_of_added {before now : List String} (h : before <+: now) : Continued before now := by
  rintro front last rfl
  obtain ⟨more, rfl⟩ := h
  exact ⟨"", more, by simp⟩

/-- Lines that continue lines that continue others continue those. -/
theorem Continued.trans {before between now : List String} (h : Continued before between) (h' : Continued between now) :
    Continued before now := by
  intro front last hbefore
  obtain ⟨addition, more, hbetween⟩ := h front last hbefore
  rcases List.eq_nil_or_concat more with rfl | ⟨others, final, rfl⟩
  · obtain ⟨further, more, hnow⟩ := h' front (last ++ addition) hbetween
    exact ⟨addition ++ further, more, by rw [hnow, String.append_assoc]⟩
  · -- the line that is continued now is a later one
    obtain ⟨further, more, hnow⟩ := h' (front ++ (last ++ addition) :: others) final (by simpa using hbetween)
    exact ⟨addition, others ++ (final ++ further) :: more, by simp [hnow]⟩

/-- Only the new line is continued, so the others stay as they are. -/
theorem Continued.added_of_line {before now : List String} {text : String} (h : Continued (before ++ [text]) now) :
    before <+: now := by
  obtain ⟨addition, more, rfl⟩ := h before text rfl
  exact List.prefix_append _ _

/-- A page that is preserved step by step is preserved, if the relation between the lines is transitive. -/
theorem Preserved.trans {R : List String → List String → Prop} (htrans : ∀ a b c, R a b → R b c → R a c)
    {before between now : Page} (h : Preserved R before between) (h' : Preserved R between now) : Preserved R before now :=
  ⟨h'.unit.trans h.unit, h'.depth.trans h.depth, htrans _ _ _ h.lines h'.lines⟩

/-- Text behind the last line continues the lines. -/
theorem continued_append (p : Page) (text : String) : Continued p.lines (p.append text).lines := by
  intro front last hlines
  refine ⟨text, [], ?_⟩
  simp [append, hlines]

end Page

namespace Writing

variable {α β : Type} {R : List String → List String → Prop}

/-- The page that writing leaves behind, also if it failed. -/
def pageAfter : EStateM.Result RenderError Page α → Page
  | .ok _ p | .error _ p => p

/-- On every page, and whether it fails or not, the writing leaves what was there as `R` says. -/
class Preserves (R : List String → List String → Prop) (w : Writing RenderError α) : Prop where
  preserved : ∀ p : Page, p.Preserved R (pageAfter (w p))

/-! ## Steps -/

/-- Writing that touches neither the lines nor the depth. -/
theorem Preserves.of_same {w : Writing RenderError α}
    (h : ∀ p, (pageAfter (w p)).unit = p.unit ∧ (pageAfter (w p)).depth = p.depth ∧ (pageAfter (w p)).lines = p.lines) :
    Preserves List.IsPrefix w where
  preserved p := ⟨(h p).1, (h p).2.1, (h p).2.2 ▸ List.prefix_refl _⟩

instance preserves_pure (a : α) : Preserves List.IsPrefix (pure a) := .of_same fun _ => ⟨rfl, rfl, rfl⟩

instance preserves_throw (err : RenderError) : Preserves List.IsPrefix (throw err : Writing RenderError α) :=
  .of_same fun _ => ⟨rfl, rfl, rfl⟩

instance preserves_note (event : Event) : Preserves List.IsPrefix (note event) := .of_same fun _ => ⟨rfl, rfl, rfl⟩

instance preserves_ofExcept (value : Except RenderError α) : Preserves List.IsPrefix (ofExcept value) := by
  refine .of_same fun p => ?_
  cases value <;> exact ⟨rfl, rfl, rfl⟩

/-- Finding the text of an expression may note something, and may fail; it writes nothing. -/
instance preserves_onPage (r : Rendering α) : Preserves List.IsPrefix r.onPage := by
  refine .of_same fun p => ?_
  unfold Rendering.onPage
  cases r p.notes <;> exact ⟨rfl, rfl, rfl⟩

instance preserves_line (text : String) : Preserves List.IsPrefix (line text) where
  preserved _ := ⟨rfl, rfl, List.prefix_append _ _⟩

instance continues_push (text : String) : Preserves Page.Continued (push text) where
  preserved p := by
    refine ⟨?_, ?_, p.continued_append text⟩
    all_goals
      unfold push Page.append
      dsimp only [pageAfter]
      split <;> rfl

/-! ## Writing that is put together -/

/-- What only adds lines continues none. -/
instance (priority := low) continues_of_preserves (w : Writing RenderError α) [h : Preserves List.IsPrefix w] :
    Preserves Page.Continued w where
  preserved p :=
    have hp := h.preserved p
    ⟨hp.unit, hp.depth, Page.continued_of_added hp.lines⟩

/-- If the first part fails, the page is as it left it; if not, the second part goes on from there. -/
theorem Preserves.bind (htrans : ∀ a b c, R a b → R b c → R a c) {w : Writing RenderError α}
    {k : α → Writing RenderError β} (hw : Preserves R w) (hk : ∀ a, Preserves R (k a)) : Preserves R (w >>= k) where
  preserved p := by
    have hfirst := hw.preserved p
    show p.Preserved R (pageAfter (EStateM.bind w k p))
    unfold EStateM.bind
    cases hresult : w p with
    | error err q =>
      rw [hresult] at hfirst
      exact hfirst
    | ok a q =>
      rw [hresult] at hfirst
      exact hfirst.trans htrans ((hk a).preserved q)

instance preserves_bind (w : Writing RenderError α) (k : α → Writing RenderError β) [hw : Preserves List.IsPrefix w]
    [hk : ∀ a, Preserves List.IsPrefix (k a)] : Preserves List.IsPrefix (w >>= k) :=
  .bind (fun _ _ _ h h' => h.trans h') hw hk

instance continues_bind (w : Writing RenderError α) (k : α → Writing RenderError β) [hw : Preserves Page.Continued w]
    [hk : ∀ a, Preserves Page.Continued (k a)] : Preserves Page.Continued (w >>= k) :=
  .bind (fun _ _ _ h h' => h.trans h') hw hk

/-- What goes on with the line it has started leaves all earlier lines as they are. -/
instance preserves_line_bind (text : String) (k : Unit → Writing RenderError α)
    [hk : ∀ a, Preserves Page.Continued (k a)] : Preserves List.IsPrefix (line text >>= k) where
  preserved p :=
    have hrest := (hk ()).preserved (p.addLine text)
    ⟨hrest.unit, hrest.depth, hrest.lines.added_of_line⟩

/-- The depth goes up by one and down by one, whichever way the writing ends. -/
instance preserves_indented (w : Writing RenderError α) [hw : Preserves List.IsPrefix w] :
    Preserves List.IsPrefix (indented w) where
  preserved p := by
    have hinner := hw.preserved { p with depth := p.depth + 1 }
    unfold indented
    cases hresult : w { p with depth := p.depth + 1 } <;> rw [hresult] at hinner <;>
      exact ⟨hinner.unit, congrArg (· - 1) hinner.depth, hinner.lines⟩

/-! ## Statements -/

variable (b : Bindings)

instance continues_pushExpr (e : Expr) : Preserves Page.Continued (pushExpr b e) := by
  unfold pushExpr
  infer_instance

instance continues_declarator (d : Declarator) : Preserves Page.Continued (declarator b d) := by
  unfold declarator
  split <;> infer_instance

instance preserves_moreDeclarators (ds : List Declarator) : Preserves List.IsPrefix (moreDeclarators b ds) := by
  induction ds with
  | nil => exact preserves_pure ()
  | cons d ds ih =>
    unfold moreDeclarators
    infer_instance

instance continues_declarators (ds : List Declarator) : Preserves Page.Continued (declarators b ds) := by
  cases ds with
  | nil =>
    unfold declarators
    infer_instance
  | cons d ds =>
    unfold declarators
    infer_instance

instance continues_stmtPlaceholder (s : Stmt) : Preserves Page.Continued (stmtPlaceholder b s) := by
  unfold stmtPlaceholder
  split <;> infer_instance

/-- What a statement may do to the lines before it: on the last line it continues that one, as a branch it adds lines. -/
def Place.mayDo : Place → List String → List String → Prop
  | .lastLine => Page.Continued
  | .branch => List.IsPrefix

/-- A statement that starts where its place says may do what its place says. -/
instance mayDo_start (place : Place) (k : Unit → Writing RenderError α) [∀ a, Preserves Page.Continued (k a)] :
    Preserves place.mayDo (place.start >>= k) := by
  cases place with
  | lastLine =>
    show Preserves Page.Continued (pure () >>= k)
    infer_instance
  | branch => exact preserves_line_bind "" k

mutual

/-- One case for each kind of statement; only a block does not start where its place says. -/
theorem mayDo_stmtAt (place : Place) (s : Stmt) : Preserves place.mayDo (stmtAt b place s) := by
  cases s with
  | return_ span value =>
    unfold stmtAt
    cases value <;> infer_instance
  | if_ span cond thenBranch elseBranch =>
    have hthen : Preserves List.IsPrefix (stmtAt b .branch thenBranch) := mayDo_stmtAt .branch thenBranch
    have helse := preserves_elseAt elseBranch
    have hbranches : Preserves Page.Continued (do
        indented (stmtAt b .branch thenBranch)
        line "\x7d"
        elseAt b elseBranch) := inferInstance
    unfold stmtAt
    infer_instance
  | while_ span cond body =>
    have hbody : Preserves List.IsPrefix (stmtAt b .branch body) := mayDo_stmtAt .branch body
    have hloop : Preserves Page.Continued (do
        indented (stmtAt b .branch body)
        line "\x7d") := inferInstance
    unfold stmtAt
    infer_instance
  | block span ss =>
    unfold stmtAt
    cases place with
    | lastLine => exact continues_stmtPlaceholder b _
    | branch => exact preserves_stmts ss
  | var | expr | doWhile | for_ | forEach | break_ | continue_ | throw | empty =>
    unfold stmtAt
    infer_instance

/-- An `else` adds lines only. -/
theorem preserves_elseAt (branch : Option Stmt) : Preserves List.IsPrefix (elseAt b branch) := by
  cases branch with
  | none => exact preserves_pure ()
  | some s =>
    have hbranch : Preserves List.IsPrefix (stmtAt b .branch s) := mayDo_stmtAt .branch s
    unfold elseAt
    infer_instance

/-- A list of statements starts the line that each of them continues. -/
theorem preserves_stmts (ss : List Stmt) : Preserves List.IsPrefix (stmts b ss) := by
  cases ss with
  | nil => exact preserves_pure ()
  | cons s ss =>
    have hfirst : Preserves Page.Continued (stmtAt b .lastLine s) := mayDo_stmtAt .lastLine s
    have hrest := preserves_stmts ss
    unfold stmts
    infer_instance

end

/-! ## Members -/

instance preserves_callable (name : String) (params : List Param) (returns : Option TypeExpr) (body : Option Block) :
    Preserves List.IsPrefix (callable b name params returns body) := by
  have hstmts := preserves_stmts b
  unfold callable
  cases body <;> infer_instance

instance preserves_property (span : Span) (name : Ident) (type : Option TypeExpr) (init : Option Expr) :
    Preserves List.IsPrefix (property b span name type init) := by
  unfold property
  cases type <;> cases init <;> infer_instance

instance preserves_member (m : Member) : Preserves List.IsPrefix (member b m) := by
  unfold member
  split <;> infer_instance

/-- From every page and however it ends, writing statements, a callable or a member leaves the depth and the indentation as they
were and only adds lines to those on the page. Writing one statement does the same, but may continue the last line. -/
theorem writing_preserves_page (b : Bindings) (p : Page) :
    (∀ ss, p.Preserved List.IsPrefix (pageAfter (stmts b ss p))) ∧
      (∀ name params returns body, p.Preserved List.IsPrefix (pageAfter (callable b name params returns body p))) ∧
      (∀ m, p.Preserved List.IsPrefix (pageAfter (member b m p))) ∧
      ∀ s, p.Preserved Page.Continued (pageAfter (stmtAt b .lastLine s p)) :=
  ⟨fun ss => (preserves_stmts b ss).preserved p,
    fun name params returns body => (preserves_callable b name params returns body).preserved p,
    fun m => (preserves_member b m).preserved p,
    fun s => (mayDo_stmtAt b .lastLine s).preserved p⟩

end Writing

end ContractCompiler
