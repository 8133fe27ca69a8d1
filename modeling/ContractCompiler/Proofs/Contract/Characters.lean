import ContractCompiler.Proofs.Contract.Layout
import ContractCompiler.Proofs.Contract.UnknownAccess
import ContractCompiler.Proofs.Token.Printable

/-!
# The characters of a contract

What can stand in the lines of a contract: printable characters of ASCII, what the indentation is made of, characters beyond
ASCII from strings, and whatever a property or a method is called. Such a name may be quoted in the source text and is then
written as it is, so a line break can come into a line with a quoted name, and with nothing else.
-/

namespace ContractCompiler

open Text

/-! ## Texts -/

namespace Text

/-- The characters of the text are printable ones of ASCII, or among those that `extra` admits. -/
def Within (extra : Char → Prop) (s : String) : Prop := ∀ c ∈ s.toList, isPrintableAscii c = true ∨ extra c

namespace Within

variable {extra : Char → Prop} {s t : String}

/-- Printable characters need not be admitted. -/
theorem printable (h : s.toList.all isPrintableAscii = true) : Within extra s :=
  fun c hc => .inl (List.all_eq_true.mp h c hc)

/-- Texts one after the other are within the characters if both are. -/
theorem append (hs : Within extra s) (ht : Within extra t) : Within extra (s ++ t) := by
  intro c hc
  rw [String.toList_append] at hc
  exact (List.mem_append.mp hc).elim (hs c) (ht c)

theorem intercalate {texts : List String} (hs : Within extra s) (h : ∀ t ∈ texts, Within extra t) :
    Within extra (s.intercalate texts) := by
  intro c hc
  rw [String.toList_intercalate] at hc
  induction texts with
  | nil => cases hc
  | cons t texts ih =>
    obtain ⟨ht, htexts⟩ := List.forall_mem_cons.mp h
    cases texts with
    | nil => exact ht c (by simpa using hc)
    | cons u texts =>
      simp only [List.map_cons, List.intercalate_cons_cons, List.mem_append] at hc
      rcases hc with (hc | hc) | hc
      · exact ht c hc
      · exact hs c hc
      · exact ih htexts hc

end Within

/-- The text at the end is shown. -/
theorem shown_last (s t : String) : t.toList <:+: (s ++ t).toList := by
  rw [String.toList_append]
  exact (List.suffix_append _ _).isInfix

/-- What is shown stays shown when text is put behind it. -/
theorem shown_append {cs : List Char} {s : String} (h : cs <:+: s.toList) (t : String) : cs <:+: (s ++ t).toList := by
  rw [String.toList_append]
  exact h.trans (List.prefix_append _ _).isInfix

end Text

/-- The character is beyond ASCII and stands in a string of the source text. -/
def InString (source : String) (c : Char) : Prop :=
  127 < c.toNat ∧ ∃ text, TokenKind.string text ∈ (tokensOf source).map Token.kind ∧ c ∈ text.toList

/-- A written string is printable but for its characters beyond ASCII. -/
theorem within_solidityString {extra : Char → Prop} {s : String} (hs : ∀ c ∈ s.toList, 127 < c.toNat → extra c) :
    Within extra (solidityString s) := by
  have hpair : ∀ {e f : Char}, isPrintableAscii e = true → isPrintableAscii f = true →
      ∀ d ∈ [e, f], isPrintableAscii d = true ∨ extra d := fun he hf =>
    List.forall_mem_cons.mpr ⟨.inl he, List.forall_mem_singleton.mpr (.inl hf)⟩
  have hchar : ∀ c ∈ s.toList, ∀ d ∈ solidityChar c, isPrintableAscii d = true ∨ extra d := by
    intro c hc
    unfold solidityChar
    split
    · exact hpair (by decide) (by decide)
    split
    · exact hpair (by decide) (by decide)
    split
    · exact hpair (by decide) (by decide)
    split
    · exact hpair (by decide) (by decide)
    split
    · exact hpair (by decide) (by decide)
    split
    · rename_i hcontrol
      have hhigh := isPrintableAscii_digitChar (show c.toNat / 16 < 16 by omega)
      have hlow := isPrintableAscii_digitChar (show c.toNat % 16 < 16 by omega)
      simp only [twoHexDigits, List.forall_mem_cons]
      exact ⟨.inl (by decide), .inl (by decide), .inl hhigh, .inl hlow, List.forall_mem_nil _⟩
    · rename_i hcontrol
      refine List.forall_mem_singleton.mpr ?_
      by_cases hascii : c.toNat ≤ 126
      · exact .inl (isPrintableAscii_iff.mpr (by omega))
      · exact .inr (hs c hc (by omega))
  intro c hc
  rw [solidityString, String.toList_ofList] at hc
  rcases List.mem_cons.mp hc with rfl | hc
  · exact .inl (by decide)
  rcases List.mem_append.mp hc with hc | hc
  · obtain ⟨d, hd, hc⟩ := List.mem_flatMap.mp hc
    exact hchar d hd c hc
  · rw [List.mem_singleton.mp hc]
    exact .inl (by decide)

/-! ## What is found -/

/-- The value that was found, if one was, is as `I` says. -/
def Found {ε α : Type} (x : Except ε α) (I : α → Prop) : Prop := ∀ a, x = .ok a → I a

namespace Found

variable {ε α β : Type} {x : Except ε α} {I : α → Prop} {J : β → Prop}

/-- A value that was found is as `I` says if it is. -/
theorem ok {a : α} (h : I a) : Found (.ok a : Except ε α) I := by
  rintro _ ⟨⟩
  exact h

/-- Where nothing was found there is nothing to show. -/
theorem error (err : ε) : Found (.error err : Except ε α) I := by
  rintro _ ⟨⟩

/-- What is found after something else is as `J` says if it is for all that may be found first. -/
theorem bind {k : α → Except ε β} (hx : Found x I) (hk : ∀ a, I a → Found (k a) J) : Found (x >>= k) J := by
  intro b hb
  cases x with
  | error err => cases hb
  | ok a => exact hk a (hx a rfl) b hb

/-- What is found for the members of a list is found for some of them, and for each of them. -/
theorem mapM {f : α → Except ε β} {R : α → β → Prop} {as : List α} (h : ∀ a ∈ as, Found (f a) (R a)) :
    Found (as.mapM f) fun bs => (∀ b ∈ bs, ∃ a ∈ as, R a b) ∧ ∀ a ∈ as, ∃ b ∈ bs, R a b := by
  induction as with
  | nil =>
    rw [List.mapM_nil]
    exact .ok ⟨List.forall_mem_nil _, List.forall_mem_nil _⟩
  | cons a as ih =>
    obtain ⟨ha, has⟩ := List.forall_mem_cons.mp h
    rw [List.mapM_cons]
    refine ha.bind fun b hb => (ih has).bind fun bs hbs => .ok ⟨?_, ?_⟩
    · refine List.forall_mem_cons.mpr ⟨⟨a, List.mem_cons_self, hb⟩, fun b' hb' => ?_⟩
      obtain ⟨a', ha', hR⟩ := hbs.1 b' hb'
      exact ⟨a', List.mem_cons_of_mem _ ha', hR⟩
    · refine List.forall_mem_cons.mpr ⟨⟨b, List.mem_cons_self, hb⟩, fun a' ha' => ?_⟩
      obtain ⟨b', hb', hR⟩ := hbs.2 a' ha'
      exact ⟨b', List.mem_cons_of_mem _ hb', hR⟩

/-- Where each value that is found is as `I` says, all of them are. -/
theorem mapM_all {f : β → Except ε α} {bs : List β} (h : ∀ b ∈ bs, Found (f b) I) :
    Found (bs.mapM f) fun as => ∀ a ∈ as, I a := by
  intro as has a ha
  obtain ⟨_, _, hI⟩ := (mapM (R := fun _ => I) h as has).1 a ha
  exact hI

end Found

variable {source : String} {b : Bindings} {extra : Char → Prop}

/-! ## Names and types -/

/-- The name of a member is made of printable characters. -/
theorem within_of_memberName? {t : Token} (ht : t ∈ tokensOf source) {name : String}
    (h : t.kind.memberName? = some name) : Within extra name :=
  .printable (Token.printable_of_isName (isName_of_mem_tokensOf ht h))

theorem Ident.ReadBy.within {i : Ident} (h : i.ReadBy (· ∈ tokensOf source) TokenKind.bindingName?) :
    Within extra i.name := by
  obtain ⟨t, ht, -, hname⟩ := h
  exact within_of_memberName? ht (memberName?_of_bindingName? hname)

/-- A token that may start a type name may name a member. -/
theorem memberName?_of_typeName? {k : TokenKind} {name : String} (h : k.typeName? = some name) :
    k.memberName? = some name := by
  unfold TokenKind.typeName? at h
  split at h
  · exact h
  · exact h
  · exact memberName?_of_bindingName? h

/-- The types of annotations are printable. -/
theorem TypeExpr.ReadFrom.within {t : TypeExpr} (h : t.ReadFrom (· ∈ tokensOf source)) :
    Found t.solidity (Within extra) := by
  induction h with
  | @keyword span word =>
    cases word with
    | number | string =>
      rw [solidity]
      exact .ok (.printable (by decide))
    | _ => exact .error _
  | array | union => exact .error _
  | @named span first more args hfirst hargs ih =>
    cases more with
    | cons => exact .error _
    | nil =>
      obtain ⟨t, ht, -, hname⟩ := hfirst
      unfold solidity
      split
      · exact .ok (.printable (by decide))
      · exact .ok (.printable (by decide))
      · obtain ⟨hkey, hvalue⟩ := List.forall_mem_cons.mp ih
        have hvalue := List.forall_mem_singleton.mp hvalue
        refine hkey.bind fun k hk => hvalue.bind fun v hv => .ok ?_
        exact ((((Within.printable (by decide)).append hk).append (.printable (by decide))).append hv).append
          (.printable (by decide))
      · exact .error _
      · exact .ok (within_of_memberName? ht (memberName?_of_typeName? hname))

/-! ## Expressions -/

/-- The operators are spelled with printable characters. -/
theorem BinaryOp.printable_spelling (op : BinaryOp) : op.spelling.toList.all isPrintableAscii = true := by
  cases op <;> decide

theorem BinaryOp.printable_solidity? {op : BinaryOp} : ∀ text ∈ op.solidity?, text.toList.all isPrintableAscii = true := by
  cases op <;> decide

/-- The kinds of expressions have printable names. -/
theorem Expr.printable_kindName (e : Expr) : e.kindName.toList.all isPrintableAscii = true := by
  cases e with
  | literal span value => cases value <;> dsimp only [kindName, Literal.kindName] <;> decide
  | _ =>
    dsimp only [kindName]
    decide

namespace Rendering

/-- Whatever was noted before, the text that is found is as `I` says. -/
def Gets {α : Type} (r : Rendering α) (I : α → Prop) : Prop := ∀ journal, Found (outcome (r journal)) I

namespace Gets

variable {α β : Type} {r : Rendering α} {I : α → Prop} {J : β → Prop}

/-- A text that needs no reading is as `I` says if it is. -/
theorem pure {a : α} (h : I a) : Gets (pure a) I := fun _ => .ok h

/-- What is found in two steps is as `J` says if it is for all that the first step may find. -/
theorem bind {k : α → Rendering β} (hr : Gets r I) (hk : ∀ a, I a → Gets (k a) J) : Gets (r >>= k) J := by
  intro journal
  have hrun := hr journal
  show Found (outcome (EStateM.bind r k journal)) J
  unfold EStateM.bind
  cases h : r journal with
  | error err journal' => exact .error err
  | ok a journal' =>
    rw [h] at hrun
    exact hk a (hrun a rfl) journal'

/-- A check that fails finds nothing, and one that does not finds no text. -/
theorem failIf (f : Option RenderError) : Gets (failIf f) fun _ => True := fun _ _ _ => trivial

end Gets

/-- A placeholder is within any characters. -/
theorem gets_placeholder (e : Expr) : Gets (placeholder e) (Within extra) := fun _ =>
  .ok (((Within.printable (by decide)).append (.printable e.printable_kindName)).append (.printable (by decide)))

theorem gets_operator (op : BinaryOp) : Gets (operator op) (Within extra) := by
  unfold operator
  split
  · exact .pure (.printable (op.printable_solidity? _ ‹_›))
  · exact fun _ =>
      .ok (((Within.printable (by decide)).append (.printable op.printable_spelling)).append (.printable (by decide)))

/-- Several expressions are within the characters if each of them is. -/
theorem gets_exprs {es : List Expr} (h : ∀ e ∈ es, Gets (expr b e) (Within extra)) :
    Gets (exprs b es) fun texts => ∀ text ∈ texts, Within extra text := by
  induction es with
  | nil =>
    rw [exprs]
    exact .pure (List.forall_mem_nil _)
  | cons e es ih =>
    obtain ⟨he, hes⟩ := List.forall_mem_cons.mp h
    rw [exprs]
    exact he.bind fun _ htext => (ih hes).bind fun _ htexts => .pure (List.forall_mem_cons.mpr ⟨htext, htexts⟩)

variable (hextra : ∀ c, InString source c → extra c)

include hextra in
/-- Of a literal only the characters of a string may be others than printable ones. -/
theorem gets_literal {span : Span} {value : Literal} (h : (Expr.literal span value).WrittenIn (tokensOf source)) :
    Gets (literal span value) (Within extra) := by
  obtain ⟨t, ht, hvalue⟩ := h
  cases value with
  | null | undefined | template => exact gets_placeholder _
  | bool value => cases value <;> exact .pure (.printable (by decide))
  | number text =>
    have hkind : t.kind = .number text := by
      unfold TokenKind.literal? at hvalue
      split at hvalue <;> cases hvalue
      assumption
    obtain ⟨scanned, hscanned, rfl⟩ := List.mem_map.mp ht
    exact .pure (.printable (Token.printable_of_mem hscanned hkind))
  | string text =>
    have hkind : t.kind = .string text := by
      unfold TokenKind.literal? at hvalue
      split at hvalue <;> cases hvalue
      assumption
    refine .pure (within_solidityString fun c hc hbeyond => hextra c ⟨hbeyond, text, ?_, hc⟩)
    exact List.mem_map.mpr ⟨t, ht, hkind⟩

include hextra in
/-- The text of an expression has no other characters beyond ASCII than the strings of the source text. -/
theorem gets_expr (e : Expr) (h : e.Sourced (tokensOf source)) (hnamed : e.NamedIn (tokensOf source)) :
    Gets (expr b e) (Within extra) := by
  obtain ⟨⟨hwritten, hchildren⟩, -⟩ := Expr.forall_subexprs_iff.mp h
  have hparts : (∀ key, ¬ e.HasShorthand key) → ∀ c ∈ e.children, Gets (expr b c) (Within extra) := by
    intro hshort c hc
    refine gets_expr c (h.child hc) ((hchildren c hc).resolve_right ?_)
    rintro ⟨key, -, hkey⟩
    exact hshort key hkey
  have hmasked : Gets (do failIf (e.firstUnknown? b); placeholder e) (Within extra) :=
    (Gets.failIf _).bind fun _ _ => gets_placeholder e
  cases e with
  | literal span value =>
    rw [expr]
    exact gets_literal hextra hwritten
  | ident name =>
    obtain ⟨t, ht, hname⟩ := hnamed
    rw [expr]
    exact .pure (within_of_memberName? ht (memberName?_of_bindingName? hname))
  | this | super =>
    rw [expr]
    exact .pure (.printable (by decide))
  | member span target name =>
    obtain ⟨t, ht, hname⟩ := hwritten
    have hbare : Within extra name.bare := .printable (Token.printable_of_isWord (isName_of_mem_tokensOf ht hname))
    rw [expr]
    exact (Gets.failIf _).bind fun _ _ => (hparts (fun _ => id) target List.mem_cons_self).bind fun _ htarget =>
      .pure ((htarget.append (.printable (by decide))).append hbare)
  | index span target key =>
    have hkey := hparts (fun _ => id) key (List.mem_cons_of_mem _ List.mem_cons_self)
    rw [expr]
    exact (hparts (fun _ => id) target List.mem_cons_self).bind fun _ htarget => hkey.bind fun _ hkey =>
      .pure (((htarget.append (.printable (by decide))).append hkey).append (.printable (by decide)))
  | binary span op left right =>
    have hright := hparts (fun _ => id) right (List.mem_cons_of_mem _ List.mem_cons_self)
    rw [expr]
    exact (hparts (fun _ => id) left List.mem_cons_self).bind fun _ hleft => (gets_operator op).bind fun _ hop =>
      hright.bind fun _ hright => .pure ((hleft.append hop).append hright)
  | paren span inner =>
    rw [expr]
    exact (hparts (fun _ => id) inner List.mem_cons_self).bind fun _ hinner =>
      .pure (((Within.printable (by decide)).append hinner).append (.printable (by decide)))
  | call span callee args =>
    have hargs := gets_exprs fun a ha => hparts (fun _ => id) a (List.mem_cons_of_mem _ ha)
    have hrest : ∀ text, Within extra text → Gets (do
        let argTexts ← exprs b args
        return text ++ "(" ++ ", ".intercalate argTexts ++ ")") (Within extra) := fun _ htext =>
      hargs.bind fun _ htexts => .pure (((htext.append (.printable (by decide))).append
        (.intercalate (.printable (by decide)) htexts)).append (.printable (by decide)))
    rw [expr]
    refine (Gets.failIf _).bind fun _ _ => ?_
    cases callee.calledIntrinsic? b with
    | some intrinsic =>
      have hintrinsic : Within extra intrinsic.solidity := by cases intrinsic <;> exact .printable (by decide)
      exact (Gets.pure hintrinsic).bind hrest
    | none => exact (hparts (fun _ => id) callee List.mem_cons_self).bind hrest
  | unary | update | conditional | array | object | new | asType | satisfiesType | nonNull | optionalChain =>
    rw [expr]
    exact hmasked
termination_by sizeOf e
decreasing_by exact Expr.sizeOf_lt_of_mem_children hc

end Rendering

/-- The text of an expression of a source text. -/
theorem Expr.within_solidity (hextra : ∀ c, InString source c → extra c) {e : Expr}
    (he : e ∈ (parse source).file.exprs) : Found (e.solidity b) (Within extra) := by
  obtain ⟨hsourced, hnamed, -⟩ := sourced_root he
  exact Rendering.gets_expr hextra e hsourced hnamed []

/-! ## Statements -/

/-- The texts of the rows are within these characters. -/
def RowsWithin (extra : Char → Prop) (rows : List Row) : Prop := ∀ r ∈ rows, Within extra r.text

namespace RowsWithin

/-- A single row is within the characters if its text is. -/
theorem single {depth : Nat} {text : String} (h : Within extra text) : RowsWithin extra [⟨depth, text⟩] :=
  List.forall_mem_singleton.mpr h

theorem append {rows others : List Row} (h : RowsWithin extra rows) (h' : RowsWithin extra others) :
    RowsWithin extra (rows ++ others) := List.forall_mem_append.mpr ⟨h, h'⟩

/-- Around rows within the characters there may be a first line and a brace. -/
theorem braced {depth : Nat} {head : String} {inner : List Row} (hhead : Within extra head)
    (hinner : RowsWithin extra inner) : RowsWithin extra (Row.braced depth head inner) :=
  ((single hhead).append hinner).append (single (.printable (by decide)))

end RowsWithin

/-- What the declared variable is written as. -/
theorem Declarator.ReadFrom.within {d : Declarator} (hd : d.ReadFrom (· ∈ tokensOf source))
    (hinit : ∀ e ∈ d.init, Found (e.solidity b) (Within extra)) : Found (d.solidity b) (Within extra) := by
  have htype : Found (Writing.localType d.type) (Within extra) := by
    cases h : d.type with
    | none => exact .ok (.printable (by decide))
    | some t => exact (hd.type t h).within
  unfold Declarator.solidity
  split
  · exact .error _
  · rename_i init heq
    refine htype.bind fun _ htype => (hinit init heq).bind fun _ hvalue => .ok ?_
    exact ((((htype.append (.printable (by decide))).append hd.name.within).append (.printable (by decide))).append
      hvalue).append (.printable (by decide))

namespace Stmt

/-- What the statement itself holds is written within these characters: its variables, or its expressions. -/
def WritesWithin (b : Bindings) (extra : Char → Prop) : Stmt → Prop
  | .var _ _ decls => ∀ d ∈ decls, Found (d.solidity b) (Within extra)
  | s => ∀ e ∈ s.exprs, Found (e.solidity b) (Within extra)

/-- A statement is written within the characters if its expressions are, since its variables have printable names. -/
theorem WritesWithin.of_exprs {s : Stmt} (hs : s.DeclaresFrom (· ∈ tokensOf source))
    (h : ∀ e ∈ s.exprs, Found (e.solidity b) (Within extra)) : s.WritesWithin b extra := by
  cases s with
  | var span kind decls =>
    exact fun d hd => (hs.2 d hd).within fun e he => h e (List.mem_filterMap.mpr ⟨d, hd, he⟩)
  | _ => exact h

/-- The same for every statement inside. -/
theorem Throughout.writesWithin {s : Stmt} (hs : s.Throughout (DeclaresFrom (· ∈ tokensOf source)))
    (h : ∀ e ∈ s.allExprs, Found (e.solidity b) (Within extra)) : s.Throughout (WritesWithin b extra) := by
  induction hs with
  | @intro s own _ ih =>
    rw [allExprs_eq] at h
    obtain ⟨hown, hparts⟩ := List.forall_mem_append.mp h
    refine .intro (.of_exprs own hown) fun t ht => ih t ht fun e he => ?_
    exact hparts e (List.mem_flatMap.mpr ⟨t, ht, he⟩)

/-- The placeholder of a statement is within any characters. -/
theorem within_placeholder (s : Stmt) : Found (s.placeholder b) (Within extra) := by
  have hkind : s.kindName.toList.all isPrintableAscii = true := by
    cases s with
    | forEach _ _ _ traversal => cases traversal <;> dsimp only [kindName] <;> decide
    | _ =>
      dsimp only [kindName]
      decide
  unfold placeholder
  split
  · exact .error _
  · exact .ok (((Within.printable (by decide)).append (.printable hkind)).append (.printable (by decide)))

mutual

/-- The rows of a statement, written wherever it stands. -/
theorem within_rows (place : Writing.Place) (depth : Nat) (s : Stmt) (h : s.Throughout (WritesWithin b extra)) :
    Found (s.rows b place depth) (RowsWithin extra) := by
  have hmasked : Found (do return [⟨depth, ← s.placeholder b⟩]) (RowsWithin extra) :=
    s.within_placeholder.bind fun _ htext => .ok (.single htext)
  cases s with
  | return_ span value =>
    cases value with
    | none =>
      rw [rows]
      exact .ok (.single (.printable (by decide)))
    | some e =>
      rw [rows]
      exact (h.own e List.mem_cons_self).bind fun _ hvalue =>
        .ok (.single (((Within.printable (by decide)).append hvalue).append (.printable (by decide))))
  | expr span e =>
    rw [rows]
    exact (h.own e List.mem_cons_self).bind fun _ htext => .ok (.single (htext.append (.printable (by decide))))
  | var span kind decls =>
    rw [rows]
    exact (Found.mapM_all h.own).bind fun _ htexts => .ok (List.forall_mem_map.mpr htexts)
  | if_ span cond thenBranch elseBranch =>
    have hthen := within_rows .branch (depth + 1) thenBranch (h.parts _ List.mem_cons_self)
    have helse := within_elseRows depth elseBranch fun s hs =>
      h.parts s (List.mem_cons_of_mem _ (Option.mem_toList.mpr hs))
    rw [rows]
    refine (h.own cond List.mem_cons_self).bind fun _ htest => hthen.bind fun _ hinner => helse.bind fun _ hothers => .ok ?_
    refine (RowsWithin.braced ?_ hinner).append hothers
    exact ((Within.printable (by decide)).append htest).append (.printable (by decide))
  | while_ span cond body =>
    have hbody := within_rows .branch (depth + 1) body (h.parts _ List.mem_cons_self)
    rw [rows]
    refine (h.own cond List.mem_cons_self).bind fun _ htest => hbody.bind fun _ hinner => .ok ?_
    exact .braced (((Within.printable (by decide)).append htest).append (.printable (by decide))) hinner
  | block span ss =>
    cases place with
    | branch =>
      rw [rows]
      exact within_rowsOf depth ss h.parts
    | lastLine =>
      rw [rows]
      exact hmasked
  | doWhile | for_ | forEach | break_ | continue_ | throw | empty =>
    rw [rows]
    exact hmasked

theorem within_elseRows (depth : Nat) (branch : Option Stmt) (h : ∀ s ∈ branch, s.Throughout (WritesWithin b extra)) :
    Found (elseRows b depth branch) (RowsWithin extra) := by
  cases branch with
  | none => exact .ok (List.forall_mem_nil _)
  | some s =>
    rw [elseRows]
    exact (within_rows .branch depth s (h s rfl)).bind fun _ hinner => .ok (.braced (.printable (by decide)) hinner)

theorem within_rowsOf (depth : Nat) (ss : List Stmt) (h : ∀ s ∈ ss, s.Throughout (WritesWithin b extra)) :
    Found (rowsOf b depth ss) (RowsWithin extra) := by
  cases ss with
  | nil => exact .ok (List.forall_mem_nil _)
  | cons s ss =>
    obtain ⟨hs, hss⟩ := List.forall_mem_cons.mp h
    rw [rowsOf]
    exact (within_rows .lastLine depth s hs).bind fun _ hown => (within_rowsOf depth ss hss).bind fun _ hothers =>
      .ok (hown.append hothers)

end

end Stmt

/-! ## Members -/

/-- A parameter is written within any characters. -/
theorem Param.ReadFrom.within {p : Param} (hp : p.ReadFrom (· ∈ tokensOf source)) : Found p.solidity (Within extra) := by
  unfold Param.solidity
  split
  · exact .error _
  · exact (hp.type _ ‹_›).within.bind fun _ htype => .ok ((htype.append (.printable (by decide))).append hp.name.within)

theorem within_returnsClause {returns : Option TypeExpr} (h : ∀ t ∈ returns, t.ReadFrom (· ∈ tokensOf source)) :
    Found (returnsClause returns) (Within extra) := by
  unfold returnsClause
  split
  · rename_i type
    split
    · exact .ok (.printable (by decide))
    · exact (h type rfl).within.bind fun _ htype =>
        .ok (((Within.printable (by decide)).append htype).append (.printable (by decide)))
  · exact .ok (.printable (by decide))

/-- The first line of a callable adds no characters to its name, and shows it. -/
theorem within_callableHead {name : String} {params : List Param} {returns : Option TypeExpr}
    (hname : Within extra (bareName name)) (hparams : ∀ p ∈ params, p.ReadFrom (· ∈ tokensOf source))
    (hreturns : ∀ t ∈ returns, t.ReadFrom (· ∈ tokensOf source)) :
    Found (callableHead name params returns) fun head =>
      Within extra head ∧ (bareName name).toList <:+: head.toList := by
  have hmapped : Found (params.mapM Param.solidity) fun texts => ∀ text ∈ texts, Within extra text :=
    .mapM_all fun p hp => (hparams p hp).within
  unfold callableHead
  refine hmapped.bind fun texts htexts => ?_
  have hlist : Within extra ("(" ++ ", ".intercalate texts ++ ") " ++
      if ['#'] <+: name.toList then "private" else "public") := by
    refine (((Within.printable (by decide)).append (.intercalate (.printable (by decide)) htexts)).append
      (.printable (by decide))).append ?_
    split <;> exact .printable (by decide)
  dsimp only
  split
  · rename_i hconstructor
    refine .ok ⟨((Within.printable (by decide)).append hlist).append (.printable (by decide)), ?_⟩
    rw [hconstructor]
    exact shown_append (shown_append List.infix_rfl _) _
  · have hclause : Found (returnsClause returns) (Within extra) := within_returnsClause hreturns
    refine hclause.bind fun clause hclause => .ok ⟨?_, ?_⟩
    · exact ((((Within.printable (by decide)).append hname).append hlist).append hclause).append (.printable (by decide))
    · exact shown_append (shown_append (shown_append (shown_last _ _) _) _) _

/-- The rows of a callable are within the characters if its name and its statements are, and one of them shows the name. -/
theorem within_callableRows {name : String} {params : List Param} {returns : Option TypeExpr} {body : Option Block}
    (hname : Within extra (bareName name)) (hparams : ∀ p ∈ params, p.ReadFrom (· ∈ tokensOf source))
    (hreturns : ∀ t ∈ returns, t.ReadFrom (· ∈ tokensOf source))
    (hbody : ∀ s ∈ body.toList.flatMap Block.stmts, s.Throughout (Stmt.WritesWithin b extra)) :
    Found (callableRows b name params returns body) fun rows =>
      RowsWithin extra rows ∧ ∃ r ∈ rows, (bareName name).toList <:+: r.text.toList := by
  unfold callableRows
  refine (within_callableHead hname hparams hreturns).bind fun head hhead => ?_
  refine (Stmt.within_rowsOf 2 _ hbody).bind fun inner hinner => .ok ⟨.braced hhead.1 hinner, ?_⟩
  exact ⟨⟨1, head⟩, List.mem_cons_self, hhead.2⟩

/-- The name that a member is written under. -/
def MemberShape.writtenName? : MemberShape → Option Ident
  | .property name .. | .method name .. => some name
  | .constructor .. | .accessor .. | .indexSignature .. => none

/-- The names that the members of a class are written under. -/
def ClassDecl.writtenNames (c : ClassDecl) : List Ident := c.members.filterMap fun m => m.shape.writtenName?

/-- An expression in a statement of a member is one of the member. -/
theorem MemberShape.mem_exprs_of_mem_stmts {shape : MemberShape} {s : Stmt} (hs : s ∈ shape.stmts) {e : Expr}
    (he : e ∈ s.allExprs) : e ∈ shape.exprs := by
  cases shape with
  | property | indexSignature => cases hs
  | constructor | method | accessor =>
    obtain ⟨block, hblock, hs⟩ := List.mem_flatMap.mp hs
    exact List.mem_append_right _ (List.mem_flatMap.mpr ⟨block, hblock, List.mem_flatMap.mpr ⟨s, hs, he⟩⟩)

/-- The rows of a member add no characters to its name, and one of them shows it. -/
theorem Member.within_rows (hextra : ∀ c, InString source c → extra c) {m : Member}
    (hm : m.shape.ReadFrom (· ∈ tokensOf source)) (hexprs : ∀ e ∈ m.shape.exprs, e ∈ (parse source).file.exprs)
    (hname : ∀ i ∈ m.shape.writtenName?, Within extra i.bare) :
    Found (m.rows b) fun rows =>
      RowsWithin extra rows ∧ ∀ i ∈ m.shape.writtenName?, ∃ r ∈ rows, i.bare.toList <:+: r.text.toList := by
  have hbody : ∀ s ∈ m.shape.stmts, s.Throughout (Stmt.WritesWithin b extra) := by
    refine fun s hs => (hm.stmts s hs).writesWithin fun e he => Expr.within_solidity hextra (hexprs e ?_)
    exact MemberShape.mem_exprs_of_mem_stmts hs he
  unfold Member.rows
  cases hshape : m.shape with
  | property name type init =>
    rw [hshape] at hm hexprs hname
    cases type with
    | none => exact .error _
    | some type =>
      have hvalue : Found (initializer b init) (Within extra) := by
        cases init with
        | none => exact .ok (.printable (by decide))
        | some e =>
          have he := Expr.within_solidity (b := b) hextra (hexprs e List.mem_cons_self)
          exact he.bind fun _ htext => .ok ((Within.printable (by decide)).append htext)
      have htype : Found type.solidity (Within extra) := (hm.type type rfl).within
      refine htype.bind fun typeText htype => hvalue.bind fun value hvalue => .ok ⟨.single ?_, ?_⟩
      · exact (((htype.append (.printable (by decide))).append (hname name rfl)).append hvalue).append
          (.printable (by decide))
      · rintro _ ⟨⟩
        exact ⟨_, List.mem_cons_self, shown_append (shown_append (shown_last _ _) _) _⟩
  | constructor params body =>
    rw [hshape] at hm hbody
    intro rows hrows
    have hhead : Within extra (bareName "constructor") := .printable (by decide)
    exact ⟨(within_callableRows hhead hm.params (by simp) hbody rows hrows).1, by simp [MemberShape.writtenName?]⟩
  | method name params returns body =>
    rw [hshape] at hm hbody hname
    refine (within_callableRows (hname name rfl) hm.params hm.type hbody).bind fun own hown => .ok ⟨?_, ?_⟩
    · exact hown.1.append (.single (.printable (by decide)))
    · rintro _ ⟨⟩
      obtain ⟨r, hr, hshown⟩ := hown.2
      exact ⟨r, List.mem_append_left _ hr, hshown⟩
  | accessor kind =>
    refine .ok ⟨.single (.printable ?_), by simp [MemberShape.writtenName?]⟩
    cases kind <;> dsimp only [MemberShape.kindName] <;> decide
  | indexSignature =>
    refine .ok ⟨.single (.printable ?_), by simp [MemberShape.writtenName?]⟩
    dsimp only [MemberShape.kindName]
    decide

/-! ## Contracts -/

/-- What a class of a source text declares was read from its tokens. -/
theorem readFrom_parse {c : ClassDecl} (hc : c ∈ (parse source).file.classes) : c.ReadFrom (· ∈ tokensOf source) := by
  have hstart : ∀ t ∈ (Cursor.start (tokensOf source)).here :: (Cursor.start (tokensOf source)).ahead,
      t ∈ tokensOf source := by
    have hfollow := follow_tokensOf source
    generalize tokensOf source = tokens at hfollow
    cases tokens with
    | nil => cases hfollow
    | cons => exact fun _ => id
  exact readFrom_readTokens hstart hc

/-- The expressions of a class of a file are expressions of the file. -/
theorem mem_exprs_of_mem_classes {file : SourceFile} {c : ClassDecl} (hc : c ∈ file.classes) {e : Expr}
    (he : e ∈ c.exprs) : e ∈ file.exprs := by
  obtain ⟨i, hi, hshape⟩ := SourceFile.mem_classes.mp hc
  refine List.mem_flatMap.mpr ⟨i, hi, ?_⟩
  rw [hshape]
  exact he

/-- The rows of a class add no characters to the names of its members, and show each of them. -/
theorem ClassDecl.within_rows (hextra : ∀ c, InString source c → extra c) {c : ClassDecl}
    (hc : c ∈ (parse source).file.classes) (hnames : ∀ i ∈ c.writtenNames, Within extra i.bare) :
    Found (c.rows b) fun rows =>
      RowsWithin extra rows ∧ ∀ i ∈ c.writtenNames, ∃ r ∈ rows, i.bare.toList <:+: r.text.toList := by
  have hread := readFrom_parse hc
  have hmember : ∀ m ∈ c.members, Found (m.rows b) fun rows =>
      RowsWithin extra rows ∧ ∀ i ∈ m.shape.writtenName?, ∃ r ∈ rows, i.bare.toList <:+: r.text.toList := by
    intro m hm
    refine Member.within_rows hextra (hread.members m hm) (fun e he => ?_) fun i hi => ?_
    · refine mem_exprs_of_mem_classes hc (List.mem_append_right _ (List.mem_flatMap.mpr ⟨m, hm, ?_⟩))
      exact List.mem_append_right _ he
    · exact hnames i (List.mem_filterMap.mpr ⟨m, hm, hi⟩)
  refine (Found.mapM hmember).bind fun parts hparts => .ok ⟨.braced ?_ ?_, ?_⟩
  · exact ((Within.printable (by decide)).append hread.name.within).append (.printable (by decide))
  · intro r hr
    obtain ⟨rows, hrows, hr⟩ := List.mem_flatten.mp hr
    obtain ⟨m, -, hwithin, -⟩ := hparts.1 rows hrows
    exact hwithin r hr
  · intro i hi
    obtain ⟨m, hm, hi⟩ := List.mem_filterMap.mp hi
    obtain ⟨rows, hrows, -, hshown⟩ := hparts.2 m hm
    obtain ⟨r, hr, hname⟩ := hshown i hi
    refine ⟨r, List.mem_append_left _ (List.mem_cons_of_mem _ ?_), hname⟩
    exact List.mem_flatten.mpr ⟨rows, hrows, hr⟩

/-- Before a row only characters of the indentation are added. -/
theorem Row.within_line {unit : String} {r : Row} (h : Within extra r.text) :
    Within (fun c => c ∈ unit.toList ∨ extra c) (r.line unit) := by
  intro c hc
  rw [Row.line, String.toList_append, String.toList_join] at hc
  rcases List.mem_append.mp hc with hc | hc
  · obtain ⟨text, htext, hc⟩ := List.mem_flatMap.mp hc
    rw [List.eq_of_mem_replicate htext] at hc
    exact .inr (.inl hc)
  · exact (h c hc).imp_right .inr

/-- What the contract of a class is made of: each name of a member is an identifier, or a string that stands in its place in
the source text; each is shown in a line; and a character of a line that is not a printable one of ASCII is one of the
indentation, one beyond ASCII in a string, or one of a name that is no identifier. -/
structure Inscribed (source unit : String) (c : ClassDecl) (contract : Contract) : Prop where
  names : ∀ i ∈ c.writtenNames,
    Token.isWord i.bare.toList = true ∨ ∃ t ∈ tokensOf source, t.span = i.span ∧ t.kind = .string i.name
  shown : ∀ i ∈ c.writtenNames, ∃ line ∈ contract.lines, i.bare.toList <:+: line.toList
  characters : ∀ line ∈ contract.lines, ∀ ch ∈ line.toList,
    isPrintableAscii ch = true ∨ ch ∈ unit.toList ∨ InString source ch ∨
      ∃ i ∈ c.writtenNames, Token.isWord i.bare.toList = false ∧ ch ∈ i.bare.toList

/-- The name that a member is written under is an identifier, or the text of a quoted name. -/
theorem isWord_or_quoted {c : ClassDecl} (hc : c ∈ (parse source).file.classes) :
    ∀ i ∈ c.writtenNames,
      Token.isWord i.bare.toList = true ∨ ∃ t ∈ tokensOf source, t.span = i.span ∧ t.kind = .string i.name := by
  intro i hi
  obtain ⟨m, hm, hi⟩ := List.mem_filterMap.mp hi
  have hdeclared : m.shape.name? = some i := by
    cases hshape : m.shape with
    | property | method =>
      rw [hshape] at hi
      exact hi
    | constructor | accessor | indexSignature =>
      rw [hshape] at hi
      cases hi
  obtain ⟨t, ht, hspan, hname⟩ := ((readFrom_parse hc).members m hm).name i hdeclared
  unfold TokenKind.declaredName? at hname
  split at hname
  · rename_i value hkind
    cases hname
    exact .inr ⟨t, ht, hspan, hkind⟩
  · exact .inl (isName_of_mem_tokensOf ht hname)

/-- Every contract that is handed to a sink is the contract of a class of the source text and inscribed by it. So a line
break stands in a line only if the indentation has one, or a name that is quoted in the source text. -/
theorem inscribed_of_mem_compileSource {σ : Type} (path source : String) (options : Options) (sink : Sink σ) (held : σ)
    {contract : Contract} (h : contract ∈ (compileSource path source options sink.recording (held, [])).sink.2) :
    ∃ c ∈ (parse source).file.classes,
      c.render options.indent ((parse source).file.bindings options.receiver) = .ok contract ∧
        Inscribed source options.indent c contract := by
  have hemitted : contract ∈ (compileFile (parse source).file options sink.recording (held, [])).sink.2 := by
    cases herr : (parse source).errors with
    | nil => simpa [compileSource, compileLoaded, loadSource, herr] using h
    | cons => simp [compileSource, compileLoaded, loadSource, herr] at h
  obtain ⟨c, hc, hrender⟩ := exists_render_of_mem hemitted
  have hclass := ClassTable.mem_of_mem_classes hc
  refine ⟨c, hclass, hrender, ?_⟩
  rw [c.render_eq_rows (readFrom_parse hclass).declaresVariables] at hrender
  -- A name that is a word is printable, so only the others bring in characters of their own.
  have hnames : ∀ i ∈ c.writtenNames, Within (fun ch => InString source ch ∨
      ∃ i ∈ c.writtenNames, Token.isWord i.bare.toList = false ∧ ch ∈ i.bare.toList) i.bare := by
    intro i hi
    cases hword : Token.isWord i.bare.toList with
    | true => exact .printable (Token.printable_of_isWord hword)
    | false => exact fun ch hch => .inr (.inr ⟨i, hi, hword, hch⟩)
  have hrows := ClassDecl.within_rows (b := (parse source).file.bindings options.receiver) (fun _ => .inl) hclass hnames
  cases heq : c.rows ((parse source).file.bindings options.receiver) with
  | error err =>
    rw [heq] at hrender
    cases hrender
  | ok rows =>
    rw [heq] at hrender
    cases hrender
    obtain ⟨hwithin, hshown⟩ := hrows rows heq
    refine ⟨isWord_or_quoted hclass, fun i hi => ?_, List.forall_mem_map.mpr fun r hr => Row.within_line (hwithin r hr)⟩
    obtain ⟨r, hr, hname⟩ := hshown i hi
    exact ⟨_, List.mem_map_of_mem hr, hname.trans (shown_last _ _)⟩

/-- A property with a line break in its quoted name, and a private method that returns a string beyond ASCII. -/
def mixedSource : String := "class A\x7b\"x\\ny\":T;#f(a:T)\x7breturn'é';\x7d\x7d"

/-- The contract of the class in `mixedSource`. -/
def mixedContract : Contract :=
  ⟨"A", ["contract A \x7b", "   T x\ny;", "   function f(T a) private \x7b", "      return \"é\";", "   \x7d", "   ", "\x7d"]⟩

/-- The contract of the class in `mixedSource` is made of what the class holds. -/
theorem mixedContract_inscribed :
    mixedContract ∈ (compileSource "input.ts" mixedSource {} Sink.list.recording ([], [])).sink.2 ∧
      ∃ c ∈ (parse mixedSource).file.classes,
        c.render "   " ((parse mixedSource).file.bindings "ETH") = .ok mixedContract ∧
          Inscribed mixedSource "   " c mixedContract := by
  have hmem : mixedContract ∈ (compileSource "input.ts" mixedSource {} Sink.list.recording ([], [])).sink.2 := by
    decide +kernel
  exact ⟨hmem, inscribed_of_mem_compileSource "input.ts" mixedSource {} Sink.list [] hmem⟩

/-- A property whose quoted name holds the end of its declaration and the start of another. -/
def quotedSource : String := "class A\x7b\"x;\\n   int256 y\":number;\x7d"

/-- The name is no identifier, and the line it is written in has a line break that declares a second variable. -/
theorem quotedSource_breaks_line :
    ((parse quotedSource).file.classes.flatMap ClassDecl.writtenNames).map Ident.bare = ["x;\n   int256 y"] ∧
      Token.isWord "x;\n   int256 y".toList = false ∧
      (compileSource "input.ts" quotedSource {} Sink.list []).sink =
        [⟨"A", ["contract A \x7b", "   int256 x;\n   int256 y;", "\x7d"]⟩] := by
  decide +kernel

end ContractCompiler
