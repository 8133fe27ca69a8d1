import ContractCompiler.Proofs.Contract.Unsupported

/-!
# Placeholders and warnings

A contract shows the placeholders of the unsupported constructs of its class, and no others, and a warning is noted for each.
Both are made in different steps: the text of an expression is put together while its warnings are noted, and it reaches the
page later. So the steps of an expression say what they note and what their text shows (`Rendering.Yields`), and the steps of
writing say what they add to a page that shows what has been warned about (`Adds`).
-/

namespace ContractCompiler

/-! ## The words of a class -/

/-- The name, the number or the string that a node is written with. -/
def Expr.ownWords : Expr → List String
  | .literal _ (.number text) => [text]
  | .literal _ (.string value) => [solidityString value]
  | .ident name => [name.name]
  | .member _ _ name => [name.bare]
  | _ => []

/-- The words an expression is written with. -/
def Expr.words (e : Expr) : List String := e.subexprs.flatMap ownWords

/-- The words of a part are words of the whole. -/
theorem Expr.words_subset {e c : Expr} (hc : c ∈ e.children) : c.words ⊆ e.words := by
  intro w hw
  obtain ⟨x, hx, hw⟩ := List.mem_flatMap.mp hw
  refine List.mem_flatMap.mpr ⟨x, ?_, hw⟩
  rw [subexprs_eq]
  exact List.mem_cons_of_mem _ (List.mem_flatMap.mpr ⟨c, hc, hx⟩)

/-- The text of a type, if it has one. -/
def TypeExpr.words (t : TypeExpr) : List String := t.solidity.toOption.toList

/-- The words a variable is declared with. -/
def Declarator.words (d : Declarator) : List String :=
  d.name.name :: d.type.toList.flatMap TypeExpr.words ++ d.init.toList.flatMap Expr.words

namespace Stmt

mutual

/-- The words a statement is written with. -/
def words : Stmt → List String
  | .return_ _ value => value.toList.flatMap Expr.words
  | .expr _ e => e.words
  | .var _ _ decls => decls.flatMap Declarator.words
  | .if_ _ cond thenBranch elseBranch => cond.words ++ (thenBranch.words ++ wordsElse elseBranch)
  | .while_ _ cond body => cond.words ++ body.words
  | .block _ ss => wordsOf ss
  | _ => []

/-- The words an `else` is written with. -/
def wordsElse : Option Stmt → List String
  | none => []
  | some s => s.words

/-- The words several statements are written with. -/
def wordsOf : List Stmt → List String
  | [] => []
  | s :: ss => s.words ++ wordsOf ss

end

end Stmt

/-- The words a parameter is written with. -/
def Param.words (p : Param) : List String := p.name.name :: p.type.toList.flatMap TypeExpr.words

/-- The words a member is written with. -/
def Member.words (m : Member) : List String :=
  match m.shape with
  | .property name type init => name.bare :: type.toList.flatMap TypeExpr.words ++ init.toList.flatMap Expr.words
  | .constructor params body => params.flatMap Param.words ++ Stmt.wordsOf (body.toList.flatMap Block.stmts)
  | .method name params returns body =>
    name.bare :: params.flatMap Param.words ++ returns.toList.flatMap TypeExpr.words ++
      Stmt.wordsOf (body.toList.flatMap Block.stmts)
  | .accessor .. | .indexSignature .. => []

/-- The words a class is written with. -/
def ClassDecl.words (c : ClassDecl) : List String := c.name.name :: c.members.flatMap Member.words

/-! ## Texts with placeholders -/

/-- A piece of a line: a placeholder, or other text. -/
inductive Piece where
  | code (text : String)
  | gap (construct : Unsupported)

namespace Piece

def text : Piece → String
  | .code text => text
  | .gap u => u.placeholder

/-- The construct a piece is the placeholder of. -/
def gap? : Piece → Option Unsupported
  | .code _ => none
  | .gap u => some u

/-- The text of several pieces. -/
def join (pieces : List Piece) : String := String.join (pieces.map text)

/-- Pieces one after the other are joined to texts one after the other. -/
theorem join_append (pieces others : List Piece) : join (pieces ++ others) = join pieces ++ join others := by
  rw [join, List.map_append, String.join_append]
  rfl

/-- A piece by itself is its text. -/
theorem join_singleton (p : Piece) : join [p] = p.text := by simp [join]

end Piece

/-- Text that is no placeholder and no part of one: it has no slash, or it is a word, or indentation. -/
def Ordinary (words : List String) (unit text : String) : Prop :=
  '/' ∉ text.toList ∨ text ∈ words ∨ ∃ depth, text = String.join (List.replicate depth unit)

/-- The text is made up of the placeholders of `us`, in their order, and of ordinary text. -/
def Drawn (words : List String) (unit text : String) (us : List Unsupported) : Prop :=
  ∃ pieces, text = Piece.join pieces ∧ pieces.filterMap Piece.gap? = us ∧
    ∀ s, .code s ∈ pieces → Ordinary words unit s

/-- The lines are made up of the placeholders of `us`, in their order, and of ordinary text. -/
def DrawnLines (words : List String) (unit : String) (lines : List String) (us : List Unsupported) : Prop :=
  ∃ rows : List (List Piece), lines = rows.map Piece.join ∧ rows.flatten.filterMap Piece.gap? = us ∧
    ∀ s, .code s ∈ rows.flatten → Ordinary words unit s

namespace Drawn

variable {words : List String} {unit text more : String} {us vs : List Unsupported}

/-- Ordinary text has no placeholder in it. -/
theorem ordinary (h : Ordinary words unit text) : Drawn words unit text [] := by
  refine ⟨[.code text], (Piece.join_singleton (.code text)).symm, rfl, fun s hs => ?_⟩
  cases List.mem_singleton.mp hs
  exact h

/-- Text without a slash is ordinary. -/
theorem plain (h : '/' ∉ text.toList) : Drawn words unit text [] := ordinary (.inl h)

theorem word (h : text ∈ words) : Drawn words unit text [] := ordinary (.inr (.inl h))

/-- A placeholder is drawn for its construct. -/
theorem gap (u : Unsupported) : Drawn words unit u.placeholder [u] := by
  refine ⟨[.gap u], (Piece.join_singleton (.gap u)).symm, rfl, fun s hs => ?_⟩
  cases List.mem_singleton.mp hs

/-- Texts one after the other have the placeholders of both, in their order. -/
theorem append (h : Drawn words unit text us) (h' : Drawn words unit more vs) :
    Drawn words unit (text ++ more) (us ++ vs) := by
  obtain ⟨pieces, rfl, rfl, hpieces⟩ := h
  obtain ⟨others, rfl, rfl, hothers⟩ := h'
  refine ⟨pieces ++ others, (Piece.join_append _ _).symm, List.filterMap_append, fun s hs => ?_⟩
  exact (List.mem_append.mp hs).elim (hpieces s) (hothers s)

/-- Plain text behind other text. -/
theorem followed (h : Drawn words unit text us) (hmore : '/' ∉ more.toList) : Drawn words unit (text ++ more) us := by
  simpa using h.append (plain hmore)

/-- So have texts with commas between them. -/
theorem intercalate {texts : List String} {uss : List (List Unsupported)} (h : List.Forall₂ (Drawn words unit) texts uss) :
    Drawn words unit (", ".intercalate texts) uss.flatten := by
  induction h with
  | nil => exact plain (by decide)
  | @cons text us texts uss htext htexts ih =>
    cases htexts with
    | nil => simpa using htext
    | cons _ _ =>
      rw [String.intercalate_cons_cons, List.flatten_cons]
      exact (htext.followed (by decide)).append ih

/-- Texts without placeholders, with commas between them. -/
theorem commas {texts : List String} (h : ∀ text ∈ texts, Drawn words unit text []) :
    Drawn words unit (", ".intercalate texts) [] := by
  have hall : List.Forall₂ (Drawn words unit) texts (texts.map fun _ => []) :=
    List.forall₂_map_right_iff.mpr (List.forall₂_same.mpr h)
  simpa using intercalate hall

end Drawn

/-- The text of a type is one of its words. -/
theorem TypeExpr.drawn {words : List String} {unit : String} {t : TypeExpr} (h : t.words ⊆ words) :
    Found t.solidity (Drawn words unit · []) := by
  intro text htext
  exact .word (h (by simp [TypeExpr.words, htext, Except.toOption]))

/-! ## Expressions -/

/-- Two steps that succeed one after the other succeed each. -/
theorem exists_of_bind_eq_ok {ε σ α β : Type} {x : EStateM ε σ α} {k : α → EStateM ε σ β} {s s' : σ} {c : β}
    (h : (x >>= k) s = .ok c s') : ∃ a between, x s = .ok a between ∧ k a between = .ok c s' := by
  change EStateM.bind x k s = .ok c s' at h
  unfold EStateM.bind at h
  cases hfirst : x s with
  | error err between =>
    rw [hfirst] at h
    cases h
  | ok a between =>
    rw [hfirst] at h
    exact ⟨a, between, rfl, h⟩

namespace Rendering

/-- A run that succeeds has noted the constructs `us` and nothing else, and its result is as `I` says. -/
def Yields {α : Type} (r : Rendering α) (us : List Unsupported) (I : α → Prop) : Prop :=
  ∀ journal a journal', r journal = .ok a journal' → journal' = journal ++ us.map Unsupported.event ∧ I a

namespace Yields

variable {α β : Type} {r : Rendering α} {us vs : List Unsupported} {I : α → Prop} {J : β → Prop}

/-- A value is found without a note. -/
theorem pure {a : α} (h : I a) : Yields (pure a) [] I := by
  intro journal a' journal' hrun
  cases hrun
  exact ⟨(List.append_nil _).symm, h⟩

/-- Two steps note what the first one notes, and then what the second one does. -/
theorem bind {k : α → Rendering β} (hr : Yields r us I) (hk : ∀ a, I a → Yields (k a) vs J) :
    Yields (r >>= k) (us ++ vs) J := by
  intro journal c journal' hrun
  obtain ⟨a, between, hfirst, hrun⟩ := exists_of_bind_eq_ok hrun
  obtain ⟨rfl, ha⟩ := hr journal a between hfirst
  obtain ⟨rfl, hc⟩ := hk a ha _ c journal' hrun
  exact ⟨by rw [List.map_append, List.append_assoc], hc⟩

/-- What is made of a result notes nothing. -/
theorem map {f : α → β} (hr : Yields r us I) (hf : ∀ a, I a → J (f a)) :
    Yields (r >>= fun a => Pure.pure (f a)) us J := by
  simpa using hr.bind fun a ha => .pure (hf a ha)

/-- A check notes nothing. -/
theorem failIf (f : Option RenderError) : Yields (failIf f) [] fun _ => True := by
  intro journal a journal' hrun
  cases f with
  | some err => cases hrun
  | none =>
    cases hrun
    exact ⟨(List.append_nil _).symm, trivial⟩

/-- A step that notes nothing leaves the notes to what comes after it. -/
theorem after {k : α → Rendering β} (hr : Yields r [] I) (hk : ∀ a, I a → Yields (k a) vs J) : Yields (r >>= k) vs J :=
  hr.bind hk

end Yields

variable {b : Bindings} {words : List String} {unit : String}

/-- A placeholder is noted and drawn. -/
theorem yields_placeholder (e : Expr) : Yields (placeholder e) [.expr e] (Drawn words unit · [.expr e]) := by
  intro journal text journal' hrun
  cases hrun
  exact ⟨rfl, .gap (.expr e)⟩

/-- An operator that Solidity does not have is noted and drawn. -/
theorem yields_operator (op : BinaryOp) : Yields (operator op) op.unsupported (Drawn words unit · op.unsupported) := by
  unfold operator BinaryOp.unsupported
  cases hop : op.solidity? with
  | none =>
    intro journal text journal' hrun
    cases hrun
    exact ⟨rfl, .gap (.operator op)⟩
  | some text =>
    have hplain : '/' ∉ text.toList := by
      cases op <;> cases hop <;> decide
    exact .pure (.plain hplain)

theorem yields_literal {span : Span} {value : Literal} (h : (Expr.literal span value).words ⊆ words) :
    Yields (literal span value) ((Expr.literal span value).unsupported b)
      (Drawn words unit · ((Expr.literal span value).unsupported b)) := by
  cases value with
  | null | undefined | template =>
    rw [Expr.unsupported]
    exact yields_placeholder _
  | number | string =>
    rw [Expr.unsupported]
    exact .pure (.word (h (by simp [Expr.words, Expr.subexprs, Expr.ownWords])))
  | bool value =>
    rw [Expr.unsupported]
    cases value <;> exact .pure (.plain (by decide))

/-- Several expressions note what each of them does, in their order. -/
theorem yields_exprs {es : List Expr}
    (h : ∀ e ∈ es, Yields (expr b e) (e.unsupported b) (Drawn words unit · (e.unsupported b))) :
    Yields (exprs b es) (Expr.unsupportedOf b es) fun texts =>
      List.Forall₂ (Drawn words unit) texts (es.map (Expr.unsupported b)) := by
  induction es with
  | nil =>
    rw [exprs]
    exact .pure .nil
  | cons e es ih =>
    obtain ⟨he, hes⟩ := List.forall_mem_cons.mp h
    rw [exprs, Expr.unsupportedOf]
    exact he.bind fun _ htext => (ih hes).map fun _ htexts => .cons htext htexts

/-- The text of an expression shows its unsupported constructs, and these are what is noted. -/
theorem yields_expr (e : Expr) (h : e.words ⊆ words) :
    Yields (expr b e) (e.unsupported b) (Drawn words unit · (e.unsupported b)) := by
  have hparts : ∀ c ∈ e.children, Yields (expr b c) (c.unsupported b) (Drawn words unit · (c.unsupported b)) :=
    fun c hc => yields_expr c (List.Subset.trans (Expr.words_subset hc) h)
  have hmasked : Yields (do failIf (e.firstUnknown? b); placeholder e) [.expr e] (Drawn words unit · [.expr e]) :=
    (Yields.failIf _).after fun _ _ => yields_placeholder e
  have hown : ∀ w ∈ e.ownWords, w ∈ words := fun w hw => h (List.mem_flatMap.mpr ⟨e, e.mem_subexprs_self, hw⟩)
  cases e with
  | literal span value =>
    rw [expr]
    exact yields_literal h
  | ident name =>
    rw [expr, Expr.unsupported]
    exact .pure (.word (hown _ List.mem_cons_self))
  | this | super =>
    rw [expr, Expr.unsupported]
    exact .pure (.plain (by decide))
  | member span target name =>
    rw [expr, Expr.unsupported]
    refine (Yields.failIf _).after fun _ _ => (hparts target List.mem_cons_self).map fun text htext => ?_
    simpa using (htext.followed (by decide)).append (.word (hown _ List.mem_cons_self))
  | index span target key =>
    have hkey := hparts key (List.mem_cons_of_mem _ List.mem_cons_self)
    rw [expr, Expr.unsupported]
    exact (hparts target List.mem_cons_self).bind fun text htext => hkey.map fun keyText hkeyText =>
      ((htext.followed (by decide)).append hkeyText).followed (by decide)
  | binary span op left right =>
    have hright := hparts right (List.mem_cons_of_mem _ List.mem_cons_self)
    have hop : Yields (operator op) op.unsupported (Drawn words unit · op.unsupported) := yields_operator op
    rw [expr, Expr.unsupported]
    refine (hparts left List.mem_cons_self).bind fun text htext => hop.bind fun opText hopText => ?_
    refine hright.map fun rightText hrightText => ?_
    rw [String.append_assoc]
    exact htext.append (hopText.append hrightText)
  | paren span inner =>
    rw [expr, Expr.unsupported]
    exact (hparts inner List.mem_cons_self).map fun text htext =>
      ((Drawn.plain (by decide)).append htext).followed (by decide)
  | call span callee args =>
    have hargs := yields_exprs fun a ha => hparts a (List.mem_cons_of_mem _ ha)
    have hrest : ∀ {us : List Unsupported} {text : String}, Drawn words unit text us → Yields (do
        let argTexts ← exprs b args
        return text ++ "(" ++ ", ".intercalate argTexts ++ ")") (Expr.unsupportedOf b args)
        (Drawn words unit · (us ++ Expr.unsupportedOf b args)) := by
      intro us text htext
      refine hargs.map fun argTexts hargTexts => ?_
      rw [Expr.unsupportedOf_eq_flatMap, List.flatMap_def]
      exact ((htext.followed (by decide)).append (.intercalate hargTexts)).followed (by decide)
    rw [expr, Expr.unsupported]
    refine (Yields.failIf _).after fun _ _ => ?_
    cases callee.calledIntrinsic? b with
    | some intrinsic =>
      have hintrinsic : '/' ∉ intrinsic.solidity.toList := by cases intrinsic <;> decide
      have hcallee : Yields (pure intrinsic.solidity) [] (Drawn words unit · []) := .pure (.plain hintrinsic)
      exact hcallee.after fun text htext => hrest htext
    | none => exact (hparts callee List.mem_cons_self).bind fun text htext => hrest htext
  | unary | update | conditional | array | object | new | asType | satisfiesType | nonNull | optionalChain =>
    rw [expr, Expr.unsupported]
    exact hmasked
termination_by sizeOf e
decreasing_by exact Expr.sizeOf_lt_of_mem_children hc

end Rendering

/-! ## Pages -/

/-- The page shows the placeholders of `us` and no others, and they are what has been warned about. -/
structure Page.Shows (words : List String) (unit : String) (p : Page) (us : List Unsupported) : Prop where
  sameUnit : p.unit = unit
  lines : DrawnLines words unit p.lines us
  warnings : p.notes.filter Event.isWarning = us.map Unsupported.event

namespace DrawnLines

variable {words : List String} {unit text : String} {lines : List String} {us vs : List Unsupported}

/-- Without lines there are no placeholders. -/
theorem nil : DrawnLines words unit [] [] := ⟨[], rfl, rfl, by simp⟩

/-- A new line comes after the others. -/
theorem add (h : DrawnLines words unit lines us) (htext : Drawn words unit text vs) :
    DrawnLines words unit (lines ++ [text]) (us ++ vs) := by
  obtain ⟨rows, rfl, rfl, hrows⟩ := h
  obtain ⟨pieces, rfl, rfl, hpieces⟩ := htext
  refine ⟨rows ++ [pieces], by simp, by simp, fun s hs => ?_⟩
  rw [List.flatten_append, List.flatten_singleton] at hs
  exact (List.mem_append.mp hs).elim (hrows s) (hpieces s)

/-- Text at the end of the last line comes after all that is there. -/
theorem continued {last : String} (h : DrawnLines words unit lines us) (hlast : lines.getLast? = some last)
    (htext : Drawn words unit text vs) : DrawnLines words unit (lines.dropLast ++ [last ++ text]) (us ++ vs) := by
  obtain ⟨rows, rfl, rfl, hrows⟩ := h
  obtain ⟨pieces, rfl, rfl, hpieces⟩ := htext
  rw [List.getLast?_map, Option.map_eq_some_iff] at hlast
  obtain ⟨row, hrow, rfl⟩ := hlast
  have hsplit : rows.dropLast ++ [row] = rows := List.dropLast_append_getLast? row hrow
  have hflat : (rows.dropLast ++ [row ++ pieces]).flatten = rows.flatten ++ pieces := by
    conv_rhs => rw [← hsplit]
    simp
  refine ⟨rows.dropLast ++ [row ++ pieces], ?_, ?_, ?_⟩
  · rw [List.map_append, List.map_dropLast, List.map_singleton, Piece.join_append]
  · rw [hflat, List.filterMap_append]
  · intro s hs
    rw [hflat] at hs
    exact (List.mem_append.mp hs).elim (hrows s) (hpieces s)

end DrawnLines

namespace Page.Shows

variable {words : List String} {unit text : String} {p : Page} {us vs : List Unsupported}

/-- A blank page shows none. -/
theorem blank (words : List String) (unit : String) : (Page.blank unit).Shows words unit [] := ⟨rfl, .nil, rfl⟩

/-- Every unsupported construct is warned about. -/
theorem filter_events (us : List Unsupported) :
    (us.map Unsupported.event).filter Event.isWarning = us.map Unsupported.event := by
  rw [List.filter_eq_self]
  intro e he
  obtain ⟨u, -, rfl⟩ := List.mem_map.mp he
  exact u.isWarning_event

/-- With the warnings about the placeholders of new text, the page is warned about as a whole. -/
theorem warnings_append (h : p.Shows words unit us) (vs : List Unsupported) :
    (p.notes ++ vs.map Unsupported.event).filter Event.isWarning = (us ++ vs).map Unsupported.event := by
  rw [List.filter_append, h.warnings, filter_events, List.map_append]

/-- A line with placeholders that are warned about. -/
theorem addLine (h : p.Shows words unit us) (htext : Drawn words unit text vs) :
    ({ p with notes := p.notes ++ vs.map Unsupported.event }.addLine text).Shows words unit (us ++ vs) := by
  have hindentation : Drawn words unit p.indentation [] := .ordinary (.inr (.inr ⟨p.depth, by rw [← h.sameUnit]; rfl⟩))
  exact ⟨h.sameUnit, h.lines.add (hindentation.append htext), h.warnings_append vs⟩

/-- Text on the last line with placeholders that are warned about. -/
theorem append (h : p.Shows words unit us) (htext : Drawn words unit text vs) :
    ({ p with notes := p.notes ++ vs.map Unsupported.event }.append text).Shows words unit (us ++ vs) := by
  unfold Page.append
  dsimp only
  split
  · rename_i last hlast
    exact ⟨h.sameUnit, h.lines.continued hlast htext, h.warnings_append vs⟩
  · exact h.addLine htext

end Page.Shows

/-! ## Writing -/

/-- Writing that succeeds adds the constructs `us` to what the page shows. -/
def Adds {α : Type} (words : List String) (unit : String) (w : Writing RenderError α) (us : List Unsupported) : Prop :=
  ∀ p a p' vs, p.Shows words unit vs → w p = .ok a p' → p'.Shows words unit (vs ++ us)

namespace Adds

variable {α β : Type} {words : List String} {unit : String} {w : Writing RenderError α} {us vs : List Unsupported}

/-- A value adds nothing. -/
theorem pure (a : α) : Adds words unit (pure a) [] := by
  intro p a' p' vs hp hrun
  cases hrun
  rwa [List.append_nil]

/-- Writing that fails adds whatever may be said. -/
theorem throw (err : RenderError) (us : List Unsupported) :
    Adds words unit (throw err : Writing RenderError α) us := by
  intro p a p' vs hp hrun
  cases hrun

/-- Two steps add what the first one adds, and then what the second one does. -/
theorem bind {k : α → Writing RenderError β} (hw : Adds words unit w us) (hk : ∀ a, Adds words unit (k a) vs) :
    Adds words unit (w >>= k) (us ++ vs) := by
  intro p c p' ws hp hrun
  obtain ⟨a, q, hfirst, hrun⟩ := exists_of_bind_eq_ok hrun
  rw [← List.append_assoc]
  exact hk a q c p' _ (hw p a q ws hp hfirst) hrun

/-- A step that adds nothing leaves it to what comes after it. -/
theorem after {k : α → Writing RenderError β} (hw : Adds words unit w []) (hk : ∀ a, Adds words unit (k a) vs) :
    Adds words unit (w >>= k) vs := hw.bind hk

/-- What comes after a step and adds nothing leaves it to the step. -/
theorem before {k : α → Writing RenderError β} (hw : Adds words unit w us) (hk : ∀ a, Adds words unit (k a) []) :
    Adds words unit (w >>= k) us := by
  simpa using hw.bind hk

/-- A line without placeholders adds none. -/
theorem line {text : String} (h : Drawn words unit text []) : Adds words unit (Writing.line text) [] := by
  intro p a p' vs hp hrun
  cases hrun
  simpa using hp.addLine h

theorem push {text : String} (h : Drawn words unit text []) : Adds words unit (Writing.push text) [] := by
  intro p a p' vs hp hrun
  cases hrun
  simpa using hp.append h

/-- An event that is no warning. -/
theorem note {event : Event} (h : event.isWarning = false) : Adds words unit (Writing.note event) [] := by
  intro p a p' vs hp hrun
  cases hrun
  refine ⟨hp.sameUnit, by simpa using hp.lines, ?_⟩
  simpa [h] using hp.warnings

/-- Indentation adds none. -/
theorem indented (hw : Adds words unit w us) : Adds words unit (Writing.indented w) us := by
  intro p a p' vs hp hrun
  have hdeeper : Page.Shows words unit { p with depth := p.depth + 1 } vs := ⟨hp.sameUnit, hp.lines, hp.warnings⟩
  unfold Writing.indented at hrun
  cases hinner : w { p with depth := p.depth + 1 } with
  | error err q =>
    rw [hinner] at hrun
    cases hrun
  | ok c q =>
    rw [hinner] at hrun
    cases hrun
    have hq := hw _ _ q vs hdeeper hinner
    exact ⟨hq.sameUnit, hq.lines, hq.warnings⟩

end Adds

/-- A step that notes the constructs `us` if it succeeds, writes nothing, and whose result is as `I` says. -/
def Notes {α : Type} (w : Writing RenderError α) (us : List Unsupported) (I : α → Prop) : Prop :=
  ∀ p a p', w p = .ok a p' → p' = { p with notes := p.notes ++ us.map Unsupported.event } ∧ I a

namespace Notes

variable {α β : Type} {words : List String} {unit : String} {w : Writing RenderError α} {us : List Unsupported}
  {I : α → Prop}

/-- A value is found without a note on the page. -/
theorem pure {a : α} (h : I a) : Notes (pure a) [] I := by
  intro p a' p' hrun
  cases hrun
  exact ⟨by simp, h⟩

/-- A warning about a construct is noted. -/
theorem note (u : Unsupported) : Notes (Writing.note u.event) [u] fun _ => True := by
  intro p a p' hrun
  cases hrun
  exact ⟨rfl, trivial⟩

/-- On the page an expression notes what it does by itself. -/
theorem onPage {r : Rendering α} (h : r.Yields us I) : Notes r.onPage us I := by
  intro p a p' hrun
  unfold Rendering.onPage at hrun
  cases hresult : r p.notes with
  | error err notes =>
    rw [hresult] at hrun
    cases hrun
  | ok c notes =>
    rw [hresult] at hrun
    cases hrun
    obtain ⟨rfl, ha⟩ := h _ _ _ hresult
    exact ⟨rfl, ha⟩

/-- What was noted is shown by the step that comes next. -/
theorem shown {k : α → Writing RenderError β} (hw : Notes w us I)
    (hk : ∀ a, I a → ∀ (p : Page) (c : β) (p' : Page) vs, p.Shows words unit vs →
      k a { p with notes := p.notes ++ us.map Unsupported.event } = .ok c p' → p'.Shows words unit (vs ++ us)) :
    Adds words unit (w >>= k) us := by
  intro p c p' vs hp hrun
  obtain ⟨a, q, hfirst, hrun⟩ := exists_of_bind_eq_ok hrun
  obtain ⟨rfl, ha⟩ := hw p a q hfirst
  exact hk a ha p c p' vs hp hrun

/-- A line is written that shows what was noted. -/
theorem line {f : α → String} (hw : Notes w us I) (hf : ∀ a, I a → Drawn words unit (f a) us) :
    Adds words unit (w >>= fun a => Writing.line (f a)) us := by
  refine hw.shown fun a ha p c p' vs hp hrun => ?_
  cases hrun
  exact hp.addLine (hf a ha)

/-- Text is written on the last line that shows what was noted. -/
theorem push {f : α → String} (hw : Notes w us I) (hf : ∀ a, I a → Drawn words unit (f a) us) :
    Adds words unit (w >>= fun a => Writing.push (f a)) us := by
  refine hw.shown fun a ha p c p' vs hp hrun => ?_
  cases hrun
  exact hp.append (hf a ha)

end Notes

/-! ## Statements -/

namespace Writing

variable {b : Bindings} {words : List String} {unit : String}

/-- What was found before adds nothing. -/
theorem adds_ofExcept {α β : Type} {value : Except RenderError α} {k : α → Writing RenderError β} {us : List Unsupported}
    (hk : ∀ a, value = .ok a → Adds words unit (k a) us) : Adds words unit (ofExcept value >>= k) us := by
  cases value with
  | error err =>
    intro p c p' vs hp hrun
    cases hrun
  | ok a => exact hk a rfl

/-- An expression adds the constructs in it. -/
theorem adds_pushExpr {e : Expr} (h : e.words ⊆ words) : Adds words unit (pushExpr b e) (e.unsupported b) :=
  (Notes.onPage (Rendering.yields_expr e h)).push fun _ htext => htext

/-- The start of a statement adds nothing. -/
theorem adds_start (place : Place) : Adds words unit place.start [] := by
  cases place with
  | lastLine => exact .pure ()
  | branch => exact .line (.plain (by decide))

/-- A placeholder of a statement adds the statement. -/
theorem adds_stmtPlaceholder (s : Stmt) : Adds words unit (stmtPlaceholder b s) [.stmt s] := by
  unfold stmtPlaceholder
  cases firstUnknown? b s with
  | some err => exact .throw err _
  | none => exact (Notes.note (.stmt s)).push fun _ _ => .gap (.stmt s)

/-- The type of a local variable has no placeholder in it. -/
theorem drawn_localType {type : Option TypeExpr} (h : type.toList.flatMap TypeExpr.words ⊆ words) :
    Found (localType type) (Drawn words unit · []) := by
  cases type with
  | none => exact .ok (.plain (by decide))
  | some t => exact TypeExpr.drawn (by simpa using h)

/-- A variable adds what its value does. -/
theorem adds_declarator {d : Declarator} (h : d.words ⊆ words) :
    Adds words unit (declarator b d) (d.init.toList.flatMap (Expr.unsupported b)) := by
  unfold declarator
  unfold Declarator.words at h
  cases hinit : d.init with
  | none => exact .throw _ _
  | some init =>
    simp only [hinit, Option.toList_some, List.flatMap_cons, List.flatMap_nil, List.append_nil] at h ⊢
    have hname : d.name.name ∈ words := h (by simp)
    have htype : d.type.toList.flatMap TypeExpr.words ⊆ words := fun w hw => h (by simp [hw])
    have hvalue : init.words ⊆ words := fun w hw => h (by simp [hw])
    refine adds_ofExcept fun text htext => ?_
    have hhead : Drawn words unit (text ++ " " ++ d.name.name ++ " = ") [] :=
      (((drawn_localType htype text htext).followed (by decide)).append (.word hname)).followed (by decide)
    exact (Adds.push hhead).after fun _ => (adds_pushExpr hvalue).before fun _ => .push (.plain (by decide))

/-- The variables after the first one add what their values do. -/
theorem adds_moreDeclarators {ds : List Declarator} (h : ds.flatMap Declarator.words ⊆ words) :
    Adds words unit (moreDeclarators b ds) ((ds.filterMap Declarator.init).flatMap (Expr.unsupported b)) := by
  induction ds with
  | nil => exact .pure ()
  | cons d ds ih =>
    rw [List.flatMap_cons, List.append_subset] at h
    rw [moreDeclarators, List.filterMap_eq_flatMap_toList, List.flatMap_cons, List.flatMap_append,
      ← List.filterMap_eq_flatMap_toList]
    exact (Adds.line (.plain (by decide))).after fun _ => (adds_declarator h.1).bind fun _ => ih h.2

theorem adds_declarators {ds : List Declarator} (h : ds.flatMap Declarator.words ⊆ words) :
    Adds words unit (declarators b ds) ((ds.filterMap Declarator.init).flatMap (Expr.unsupported b)) := by
  cases ds with
  | nil => exact .pure ()
  | cons d ds =>
    rw [List.flatMap_cons, List.append_subset] at h
    rw [declarators, List.filterMap_eq_flatMap_toList, List.flatMap_cons, List.flatMap_append,
      ← List.filterMap_eq_flatMap_toList]
    exact (adds_declarator h.1).bind fun _ => adds_moreDeclarators h.2

mutual

/-- Writing a statement shows its unsupported constructs. -/
theorem adds_stmtAt (place : Place) (s : Stmt) (h : s.words ⊆ words) :
    Adds words unit (stmtAt b place s) (s.unsupported b place) := by
  cases s with
  | return_ span value =>
    rw [stmtAt, Stmt.unsupported]
    refine (adds_start place).after fun _ => (Adds.push (.plain (by decide))).after fun _ => ?_
    cases value with
    | none => exact (Adds.pure ()).after fun _ => .push (.plain (by decide))
    | some e =>
      rw [Stmt.words] at h
      simp only [Option.toList_some, List.flatMap_cons, List.flatMap_nil, List.append_nil] at h ⊢
      have hvalue : Adds words unit (do push " "; pushExpr b e) (e.unsupported b) :=
        (Adds.push (.plain (by decide))).after fun _ => adds_pushExpr h
      exact hvalue.before fun _ => .push (.plain (by decide))
  | if_ span cond thenBranch elseBranch =>
    rw [Stmt.words, List.append_subset, List.append_subset] at h
    rw [stmtAt, Stmt.unsupported]
    refine (adds_start place).after fun _ => (Adds.push (.plain (by decide))).after fun _ => ?_
    refine (adds_pushExpr h.1).bind fun _ => (Adds.push (.plain (by decide))).after fun _ => ?_
    refine (Adds.indented (adds_stmtAt .branch thenBranch h.2.1)).bind fun _ => ?_
    exact (Adds.line (.plain (by decide))).after fun _ => adds_elseAt elseBranch h.2.2
  | var span kind decls =>
    rw [stmtAt, Stmt.unsupported]
    exact (adds_start place).after fun _ => adds_declarators h
  | expr span e =>
    rw [stmtAt, Stmt.unsupported]
    exact (adds_start place).after fun _ => (adds_pushExpr h).before fun _ => .push (.plain (by decide))
  | while_ span cond body =>
    rw [Stmt.words, List.append_subset] at h
    rw [stmtAt, Stmt.unsupported]
    refine (adds_start place).after fun _ => (Adds.push (.plain (by decide))).after fun _ => ?_
    refine (adds_pushExpr h.1).bind fun _ => (Adds.push (.plain (by decide))).after fun _ => ?_
    exact (Adds.indented (adds_stmtAt .branch body h.2)).before fun _ => .line (.plain (by decide))
  | block span ss =>
    cases place with
    | branch =>
      rw [stmtAt, Stmt.unsupported]
      exact adds_stmts ss h
    | lastLine =>
      rw [stmtAt, Stmt.unsupported]
      exact adds_stmtPlaceholder _
  | doWhile | for_ | forEach | break_ | continue_ | throw | empty =>
    rw [stmtAt, Stmt.unsupported]
    exact (adds_start place).after fun _ => adds_stmtPlaceholder _

/-- An `else` adds the constructs in it. -/
theorem adds_elseAt (branch : Option Stmt) (h : Stmt.wordsElse branch ⊆ words) :
    Adds words unit (elseAt b branch) (Stmt.unsupportedElse b branch) := by
  cases branch with
  | none => exact .pure ()
  | some s =>
    rw [elseAt, Stmt.unsupportedElse]
    refine (Adds.line (.plain (by decide))).after fun _ => (adds_stmtAt .branch s h).before fun _ => ?_
    exact .line (.plain (by decide))

/-- Statements one after the other add the constructs in each of them. -/
theorem adds_stmts (ss : List Stmt) (h : Stmt.wordsOf ss ⊆ words) :
    Adds words unit (stmts b ss) (Stmt.unsupportedOf b ss) := by
  cases ss with
  | nil => exact .pure ()
  | cons s ss =>
    rw [Stmt.wordsOf, List.append_subset] at h
    rw [stmts, Stmt.unsupportedOf]
    refine (Adds.line (.plain (by decide))).after fun _ => (adds_stmtAt .lastLine s h.1).bind fun _ => ?_
    exact adds_stmts ss h.2

end

end Writing

/-! ## Members and classes -/

section Signature

variable {words : List String} {unit : String}

/-- A parameter has no placeholder in it. -/
theorem Param.drawn {p : Param} (h : p.words ⊆ words) : Found p.solidity (Drawn words unit · []) := by
  unfold Param.words at h
  unfold Param.solidity
  cases htype : p.type with
  | none => exact .error _
  | some type =>
    simp only [htype, Option.toList_some, List.flatMap_cons, List.flatMap_nil, List.append_nil, List.cons_subset] at h
    exact (TypeExpr.drawn h.2).bind fun text htext => .ok ((htext.followed (by decide)).append (.word h.1))

theorem drawn_returnsClause {returns : Option TypeExpr} (h : returns.toList.flatMap TypeExpr.words ⊆ words) :
    Found (returnsClause returns) (Drawn words unit · []) := by
  cases returns with
  | none => exact .ok (.plain (by decide))
  | some type =>
    have htype : Found type.solidity (Drawn words unit · []) := TypeExpr.drawn (by simpa using h)
    unfold returnsClause
    dsimp only
    split
    · exact .ok (.plain (by decide))
    · exact htype.bind fun text htext => .ok (((Drawn.plain (by decide)).append htext).followed (by decide))

/-- The first line of a callable has no placeholder. -/
theorem drawn_signature {name : String} {params : List Param} {returns : Option TypeExpr}
    (hname : Drawn words unit (bareName name) []) (hparams : params.flatMap Param.words ⊆ words)
    (hreturns : returns.toList.flatMap TypeExpr.words ⊆ words) :
    Found (signature name params returns) (Drawn words unit · []) := by
  have hlist : Found (params.mapM Param.solidity) fun texts => ∀ text ∈ texts, Drawn words unit text [] :=
    Found.mapM_all fun p hp => p.drawn fun w hw => hparams (List.mem_flatMap.mpr ⟨p, hp, hw⟩)
  have hvisibility : '/' ∉ (if isPrivateName name then "private" else "public").toList := by
    split <;> decide
  unfold signature
  refine hlist.bind fun texts htexts => ?_
  have hhead : Drawn words unit ("(" ++ ", ".intercalate texts ++ ") " ++
      if isPrivateName name then "private" else "public") [] :=
    (((Drawn.plain (by decide)).append (.commas htexts)).followed (by decide)).followed hvisibility
  dsimp only
  split
  · exact .ok (((Drawn.plain (by decide)).append hhead).followed (by decide))
  · have hclause : Found (returnsClause returns) (Drawn words unit · []) := drawn_returnsClause hreturns
    refine hclause.bind fun clause hclause => .ok ?_
    exact ((((Drawn.plain (by decide)).append hname).append hhead).append hclause).followed (by decide)

end Signature

namespace Writing

variable {b : Bindings} {words : List String} {unit : String}

/-- A callable adds the constructs in its body. -/
theorem adds_callable {name : String} {params : List Param} {returns : Option TypeExpr} {body : Option Block}
    (hname : Drawn words unit (bareName name) []) (hparams : params.flatMap Param.words ⊆ words)
    (hreturns : returns.toList.flatMap TypeExpr.words ⊆ words)
    (hbody : Stmt.wordsOf (body.toList.flatMap Block.stmts) ⊆ words) :
    Adds words unit (callable b name params returns body) (Stmt.unsupportedOf b (body.toList.flatMap Block.stmts)) := by
  unfold callable
  refine adds_ofExcept fun text htext => ?_
  refine (Adds.line (drawn_signature hname hparams hreturns text htext)).after fun _ => ?_
  cases body with
  | none => exact (Adds.pure ()).after fun _ => .line (.plain (by decide))
  | some block =>
    simp only [Option.toList_some, List.flatMap_cons, List.flatMap_nil, List.append_nil] at hbody ⊢
    exact (Adds.indented (adds_stmts block.stmts hbody)).before fun _ => .line (.plain (by decide))

/-- A property adds what its value does. -/
theorem adds_property {span : Span} {name : Ident} {type : Option TypeExpr} {init : Option Expr}
    (hname : name.bare ∈ words) (htype : type.toList.flatMap TypeExpr.words ⊆ words)
    (hinit : init.toList.flatMap Expr.words ⊆ words) :
    Adds words unit (property b span name type init) (init.toList.flatMap (Expr.unsupported b)) := by
  unfold property
  cases type with
  | none => exact .throw _ _
  | some type =>
    refine adds_ofExcept fun text htext => ?_
    have hhead : Drawn words unit (text ++ " " ++ name.bare) [] :=
      ((TypeExpr.drawn (by simpa using htype) text htext).followed (by decide)).append (.word hname)
    cases init with
    | none =>
      have hvalue : Notes (pure "") [] (Drawn words unit · []) := .pure (.plain (by decide))
      exact hvalue.line fun value hvalue => (hhead.append hvalue).followed (by decide)
    | some e =>
      simp only [Option.toList_some, List.flatMap_cons, List.flatMap_nil, List.append_nil] at hinit ⊢
      have hexpr : Notes (Rendering.expr b e).onPage (e.unsupported b) (Drawn words unit · (e.unsupported b)) :=
        .onPage (Rendering.yields_expr e hinit)
      simp only [pure_bind]
      refine hexpr.line fun value hvalue => ?_
      exact (hhead.append ((Drawn.plain (by decide)).append hvalue)).followed (by decide)

/-- Writing a member shows its unsupported constructs. -/
theorem adds_member {m : Member} (h : m.words ⊆ words) : Adds words unit (member b m) (m.unsupported b) := by
  have hgap : Adds words unit (do
      note (.unsupportedMember m.shape.kindName m.span)
      line ("/* <member kind=" ++ m.shape.kindName ++ " /> */")) [.member m] :=
    (Notes.note (.member m)).line fun _ _ => .gap (.member m)
  unfold member Member.unsupported
  unfold Member.words at h
  cases hshape : m.shape with
  | property name type init =>
    simp only [hshape, List.append_subset, List.cons_append, List.cons_subset] at h
    exact adds_property h.1 h.2.1 h.2.2
  | constructor params body =>
    simp only [hshape, List.append_subset] at h
    have hname : bareName constructorName = "constructor" := by decide +kernel
    refine adds_callable ?_ h.1 (by simp) h.2
    rw [hname]
    exact .plain (by decide)
  | method name params returns body =>
    simp only [hshape, List.append_subset, List.cons_append, List.cons_subset] at h
    have hname : Drawn words unit (bareName name.name) [] := .word h.1
    have hcallable := adds_callable (b := b) hname h.2.1.1 h.2.1.2 h.2.2
    exact hcallable.before fun _ => .line (.plain (by decide))
  | accessor | indexSignature =>
    rw [hshape] at hgap
    exact hgap

/-- Members one after the other add the constructs in each of them. -/
theorem adds_members {ms : List Member} (h : ms.flatMap Member.words ⊆ words) :
    Adds words unit (members b ms) (ms.flatMap (Member.unsupported b)) := by
  induction ms with
  | nil => exact .pure ()
  | cons m ms ih =>
    rw [List.flatMap_cons, List.append_subset] at h
    rw [members, List.flatMap_cons]
    exact (adds_member h.1).bind fun _ => ih h.2

/-- A class adds the constructs in its members. -/
theorem adds_contract {c : ClassDecl} (h : c.words ⊆ words) : Adds words unit (contract b c) (c.unsupported b) := by
  rw [ClassDecl.words, List.cons_subset] at h
  have hhead : Drawn words unit ("contract " ++ c.name.name ++ " \x7b") [] :=
    ((Drawn.plain (by decide)).append (.word h.1)).followed (by decide)
  refine (Adds.note rfl).after fun _ => (Adds.line hhead).after fun _ => ?_
  exact (Adds.indented (adds_members h.2)).before fun _ => .line (.plain (by decide))

end Writing

/-- Every placeholder of a contract is warned about once, and in order. The warnings that are noted while a class is written are
those about its outermost unsupported constructs, in the order of the text, and nothing else is warned about; the lines of the
contract are made up of the placeholders of these constructs, in the same order, and otherwise of words of the class, of
indentation and of text without a slash. What is unsupported can be told from the class alone if it is one of a parsed file. -/
theorem placeholders_warned_about {c : ClassDecl} {unit : String} {b : Bindings} {contract : Contract}
    (h : c.render unit b = .ok contract) :
    (c.renderEvents unit b).filter Event.isWarning = (c.unsupported b).map Unsupported.event ∧
    DrawnLines c.words unit contract.lines (c.unsupported b) ∧
    ∀ source receiver : String, c ∈ (parse source).file.classes → b = (parse source).file.bindings receiver →
      c.unsupported b = c.unsupported .empty := by
  unfold ClassDecl.render at h
  unfold ClassDecl.renderEvents
  cases hrun : Writing.contract b c (Page.blank unit) with
  | error err page =>
    rw [hrun] at h
    cases h
  | ok a page =>
    rw [hrun] at h
    cases h
    have hshows : page.Shows c.words unit ([] ++ c.unsupported b) :=
      Writing.adds_contract (List.Subset.refl _) _ _ page [] (.blank _ _) hrun
    refine ⟨hshows.warnings, hshows.lines, ?_⟩
    rintro source receiver hc rfl
    exact c.unsupported_eq_of_parse receiver hc

/-- A class with an unsupported member, and a method with unsupported statements and expressions, some of them inside
others. -/
def gapsSource : String := "class A\x7bget g()\x7breturn!1;\x7df(a:T)\x7b;a=[!a]*!a;\x7b!a;\x7dif(a)throw!a;\x7d\x7d"

/-- The contract of the class in `gapsSource`. -/
def gapsContract : Contract :=
  ⟨"A", ["contract A \x7b", "  /* <member kind=GetAccessor /> */", "  function f(T a) public \x7b",
    "    /* <statement kind=Empty /> */",
    "    a = /* <expression kind=ArrayLiteral /> */ /* <token op=* /> */ /* <expression kind=Unary /> */;",
    "    /* <statement kind=Block /> */", "    if (a) \x7b", "      /* <statement kind=Throw /> */", "    \x7d", "  \x7d",
    "  ", "\x7d"]⟩

/-- The seven placeholders of `gapsContract` are those of the seven warnings. -/
theorem gapsContract_warned_about :
    let b := (parse gapsSource).file.bindings "ETH"
    ∃ c ∈ (parse gapsSource).file.classes,
      c.render "  " b = .ok gapsContract ∧
      (c.unsupported .empty).map Unsupported.event =
        [.unsupportedMember "GetAccessor" ⟨8, 26⟩, .unsupportedStmt "Empty" ⟨33, 34⟩,
          .unsupportedExpr "ArrayLiteral" ⟨36, 40⟩, .unsupportedOperator "*", .unsupportedExpr "Unary" ⟨41, 43⟩,
          .unsupportedStmt "Block" ⟨44, 49⟩, .unsupportedStmt "Throw" ⟨54, 62⟩] ∧
      DrawnLines c.words "  " gapsContract.lines (c.unsupported .empty) := by
  intro b
  have hread : ((parse gapsSource).file.classes.map fun c =>
      (c.render "  " b, (c.renderEvents "  " b).filter Event.isWarning)) =
      [(.ok gapsContract, [.unsupportedMember "GetAccessor" ⟨8, 26⟩, .unsupportedStmt "Empty" ⟨33, 34⟩,
        .unsupportedExpr "ArrayLiteral" ⟨36, 40⟩, .unsupportedOperator "*", .unsupportedExpr "Unary" ⟨41, 43⟩,
        .unsupportedStmt "Block" ⟨44, 49⟩, .unsupportedStmt "Throw" ⟨54, 62⟩])] := by
    decide +kernel
  obtain ⟨c, hclasses, hc⟩ := List.map_eq_singleton_iff.mp hread
  obtain ⟨hrender, hevents⟩ := Prod.mk.inj hc
  have hmem : c ∈ (parse gapsSource).file.classes := hclasses ▸ List.mem_singleton.mpr rfl
  obtain ⟨hwarned, hlines, hparsed⟩ := placeholders_warned_about hrender
  rw [hparsed gapsSource "ETH" hmem rfl] at hwarned hlines
  exact ⟨c, hmem, hrender, hwarned.symm.trans hevents, hlines⟩

end ContractCompiler
