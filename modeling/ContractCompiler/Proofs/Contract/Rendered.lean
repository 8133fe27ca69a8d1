import ContractCompiler.Proofs.Contract.Grouping
import ContractCompiler.Proofs.Reading.Spelling

/-!
# The tokens of a rendered expression

An expression that is made only of what Solidity has too is written without a placeholder and without a note. Its text is
made up of the tokens of its term, which has the shape of the expression, and scanning the text gives them back. It is
written unless an access in it is to something the receiver does not offer; then the first such access is the failure.
-/

namespace ContractCompiler

open Token Solidity

/-- The operator of Solidity that an operator is written as. The strict comparisons are written as the plain ones. -/
def BinaryOp.operator? : BinaryOp → Option Operator
  | .assign => some .assign
  | .subAssign => some .subAssign
  | .or => some .or
  | .and => some .and
  | .eq | .strictEq => some .eq
  | .notEq | .strictNotEq => some .notEq
  | .lt => some .lt
  | .gt => some .gt
  | .le => some .le
  | .ge => some .ge
  | .bitOr => some .bitOr
  | .bitXor => some .bitXor
  | .bitAnd => some .bitAnd
  | .add => some .add
  | .sub => some .sub
  | _ => none

/-- An operator is written as the mark of its counterpart between spaces. -/
theorem BinaryOp.toList_solidity? (op : BinaryOp) :
    op.solidity?.map String.toList = op.operator?.map fun o => ' ' :: (o.mark.chars ++ [' ']) := by
  cases op <;> rfl

namespace Expr

/-- Whether a node by itself is one that Solidity has too. A call is, unless it is to an intrinsic. -/
def hasCounterpart (b : Bindings) : Expr → Bool
  | .literal _ (.number _) | .literal _ (.string _) | .literal _ (.bool _) => true
  | .ident _ | .this _ | .super _ | .member .. | .index .. | .paren .. => true
  | .call _ callee _ => (callee.calledIntrinsic? b).isNone
  | .binary _ op _ _ => op.solidity?.isSome
  | _ => false

/-- The expression is made only of what Solidity has too. -/
def Plain (b : Bindings) (e : Expr) : Prop := ∀ x ∈ e.subexprs, x.hasCounterpart b = true

instance (b : Bindings) (e : Expr) : Decidable (e.Plain b) :=
  inferInstanceAs (Decidable (∀ x ∈ e.subexprs, x.hasCounterpart b = true))

mutual

/-- The term of Solidity that has the shape of an expression. What has no counterpart gives a leaf that is no operand. -/
@[simp]
def term : Expr → Term
  | .literal _ value => .leaf value.kind
  | .ident name => .leaf (.ofWord name.name)
  | .this _ => .leaf (.keyword .this)
  | .super _ => .leaf (.keyword .super)
  | .member _ target name => .member target.term (.ofWord name.bare)
  | .index _ target key => .index target.term key.term
  | .call _ callee args => .call callee.term (terms args)
  | .paren _ inner => .paren inner.term
  | .binary _ op left right =>
    match op.operator? with
    | some o => .operation o left.term right.term
    | none => .leaf .endOfInput
  | _ => .leaf .endOfInput

/-- The terms of several expressions. -/
def terms : List Expr → List Term
  | [] => []
  | e :: es => e.term :: terms es

end

/-- The terms of several expressions are those of each. -/
theorem terms_eq_map (es : List Expr) : terms es = es.map term := by
  induction es with
  | nil => rfl
  | cons e es ih => rw [terms, ih, List.map_cons]

/-- A plain expression has a counterpart itself. -/
theorem Plain.self {b : Bindings} {e : Expr} (h : e.Plain b) : e.hasCounterpart b = true :=
  (forall_subexprs_iff.mp h).1

/-- What stands in a plain expression is plain. -/
theorem Plain.child {b : Bindings} {e c : Expr} (h : e.Plain b) (hc : c ∈ e.children) : c.Plain b :=
  (forall_subexprs_iff.mp h).2 c hc

end Expr

/-! ## Finding a text -/

/-- Finding a text notes nothing, and gives the failure, or a text with the property. -/
def Gives {α : Type} (r : Rendering α) (failure : Option RenderError) (P : α → Prop) : Prop :=
  ∀ journal, match failure with
    | some err => r journal = .error err journal
    | none => ∃ a, r journal = .ok a journal ∧ P a

namespace Gives

variable {α β : Type} {r : Rendering α} {f g : Option RenderError} {P : α → Prop} {Q : β → Prop}

/-- A value is found without a failure. -/
theorem pure {a : α} (h : P a) : Gives (pure a) none P := fun _ => ⟨a, rfl, h⟩

/-- A check fails with what it is given. -/
theorem failIf (f : Option RenderError) : Gives (Rendering.failIf f) f fun _ => True := by
  intro journal
  cases f with
  | none => exact ⟨(), rfl, trivial⟩
  | some err => rfl

/-- Two steps fail as the first one does, and else as the second one. -/
theorem bind {k : α → Rendering β} (hr : Gives r f P) (hk : ∀ a, P a → Gives (k a) g Q) : Gives (r >>= k) (f.or g) Q := by
  intro journal
  have hrun := hr journal
  cases f with
  | some err =>
    have hrun : r journal = .error err journal := hrun
    show EStateM.bind r k journal = _
    rw [EStateM.bind, hrun]
  | none =>
    obtain ⟨a, hrun, ha⟩ : ∃ a, r journal = .ok a journal ∧ P a := hrun
    have hbind : (r >>= k) journal = k a journal := by
      show EStateM.bind r k journal = _
      rw [EStateM.bind, hrun]
    have hrest := hk a ha journal
    cases g with
    | some err => exact hbind.trans hrest
    | none =>
      obtain ⟨b, hb, hQ⟩ := hrest
      exact ⟨b, hbind.trans hb, hQ⟩

/-- What is made of a value fails as finding the value does. -/
theorem map {k : α → β} (hr : Gives r f P) (hk : ∀ a, P a → Q (k a)) : Gives (r >>= fun a => Pure.pure (k a)) f Q := by
  rw [← Option.or_none (o := f)]
  exact hr.bind fun a ha => .pure (hk a ha)

end Gives

/-- In front of anything that cannot be taken for a part of a word or a number, the text is scanned as the tokens. -/
def Spells (text : String) (kinds : List TokenKind) : Prop := ∀ rest, Delimited rest → Scans text.toList kinds rest

/-- A character that is no part of a word or a number ends either. -/
theorem delimited_cons {c : Char} (h : isWordPart c = false) (hdot : c ≠ '.') (rest : List Char) :
    Delimited (c :: rest) where
  head d hd := by
    cases hd
    exact h
  point d cs heq := absurd (List.cons.inj heq).1 hdot

namespace Spells

variable {text text' : String} {ks ls : List TokenKind} {name : String}

/-- A word is scanned as the token of the word. -/
theorem word (cs : List Char) (h : isWord cs = true) : Spells (String.ofList cs) [.ofWord (String.ofList cs)] := by
  intro rest hrest
  rw [String.toList_ofList]
  exact scans_word h hrest

/-- A member is scanned as its target, a point and its name. -/
theorem member (h : Spells text ks) (hname : isWord name.toList = true) :
    Spells (text ++ "." ++ name) (ks ++ [TokenKind.mark .dot, .ofWord name]) := by
  intro rest hrest
  obtain ⟨c, cs, hcs, hc⟩ : ∃ c cs, name.toList = c :: cs ∧ c.isDigit = false := by
    cases hcs : name.toList with
    | nil =>
      rw [hcs] at hname
      cases hname
    | cons c cs =>
      rw [hcs, isWord, Bool.and_eq_true] at hname
      refine ⟨c, cs, rfl, Bool.eq_false_iff.mpr fun hdigit => ?_⟩
      rw [not_isWordStart_of_isDigit hdigit] at hname
      cases hname.1
  have hdelimited : Delimited ('.' :: (name.toList ++ rest)) := by
    refine ⟨?_, ?_⟩
    · rintro _ ⟨⟩
      decide
    · rw [hcs]
      rintro d ds heq
      cases heq
      exact hc
  have hdot : Scans ['.'] [.mark .dot] (name.toList ++ rest) := by
    apply scans_dot
    rw [hcs]
    rintro _ ⟨⟩
    exact hc
  have hword := scans_word hname hrest
  rw [String.ofList_toList] at hword
  have hchars : (text ++ "." ++ name).toList = text.toList ++ ('.' :: name.toList) := by simp
  rw [hchars]
  exact (h _ hdelimited).append (hdot.append hword)

/-- The text between two brackets. -/
theorem enclosed (h : Spells text ks) {m m' : Mark} (hm : m ∈ [Mark.lparen, .rparen, .lbracket, .rbracket, .comma])
    (hm' : m' ∈ [Mark.lparen, .rparen, .lbracket, .rbracket, .comma]) (rest : List Char) :
    Scans (m.chars ++ (text.toList ++ m'.chars)) (.mark m :: (ks ++ [TokenKind.mark m'])) rest := by
  have hdelimited : Delimited (m'.chars ++ rest) := by
    simp only [List.mem_cons, List.not_mem_nil, or_false] at hm'
    rcases hm' with rfl | rfl | rfl | rfl | rfl <;> exact delimited_cons (by decide) (by decide) rest
  exact (scans_bracket hm _).append ((h _ hdelimited).append (scans_bracket hm' rest))

/-- Parentheses are scanned around what they hold. -/
theorem paren (h : Spells text ks) : Spells ("(" ++ text ++ ")") (.mark .lparen :: (ks ++ [TokenKind.mark .rparen])) := by
  intro rest _
  have hchars : ("(" ++ text ++ ")").toList = Mark.lparen.chars ++ (text.toList ++ Mark.rparen.chars) := by
    simp [Mark.chars]
  rw [hchars]
  exact h.enclosed (by decide) (by decide) rest

theorem index (h : Spells text ks) (h' : Spells text' ls) :
    Spells (text ++ "[" ++ text' ++ "]") (ks ++ TokenKind.mark .lbracket :: (ls ++ [TokenKind.mark .rbracket])) := by
  intro rest _
  have hchars : (text ++ "[" ++ text' ++ "]").toList =
      text.toList ++ (Mark.lbracket.chars ++ (text'.toList ++ Mark.rbracket.chars)) := by simp [Mark.chars]
  rw [hchars]
  exact (h _ (delimited_cons (by decide) (by decide) _)).append (h'.enclosed (by decide) (by decide) rest)

theorem call (h : Spells text ks) (h' : Spells text' ls) :
    Spells (text ++ "(" ++ text' ++ ")") (ks ++ TokenKind.mark .lparen :: (ls ++ [TokenKind.mark .rparen])) := by
  intro rest _
  have hchars : (text ++ "(" ++ text' ++ ")").toList =
      text.toList ++ (Mark.lparen.chars ++ (text'.toList ++ Mark.rparen.chars)) := by simp [Mark.chars]
  rw [hchars]
  exact (h _ (delimited_cons (by decide) (by decide) _)).append (h'.enclosed (by decide) (by decide) rest)

/-- An operator between blanks is scanned between its operands. -/
theorem operation (h : Spells text ks) (h' : Spells text' ls) {opText : String} {o : Operator}
    (hop : opText.toList = ' ' :: (o.mark.chars ++ [' '])) :
    Spells (text ++ opText ++ text') (ks ++ TokenKind.mark o.mark :: ls) := by
  intro rest hrest
  have hvisible : ∀ c ∈ o.mark.chars.head?, isVisible c = true := by
    intro c hc
    cases o <;> cases hc <;> decide
  have hmark : Scans (o.mark.chars ++ ' ' :: text'.toList) ([TokenKind.mark o.mark] ++ ls) rest :=
    (scans_mark_space hvisible _).append (h' rest hrest).space
  have hchars : (text ++ opText ++ text').toList = text.toList ++ (' ' :: (o.mark.chars ++ ' ' :: text'.toList)) := by
    simp [hop]
  rw [hchars]
  exact (h _ (delimited_cons (by decide) (by decide) _)).append hmark.space

/-- Several texts with commas and spaces between them. -/
theorem commas {texts : List String} {kinds : List (List TokenKind)} (h : List.Forall₂ Spells texts kinds) :
    Spells (", ".intercalate texts) (TokenKind.commas kinds) := by
  induction h with
  | nil => exact fun rest _ => .nil rest
  | @cons text ks texts kinds htext htexts ih =>
    cases htexts with
    | nil => simpa [Spells, String.toList_intercalate, TokenKind.commas] using htext
    | @cons text' ks' texts kinds htext' htexts =>
      intro rest hrest
      have hchars : (", ".intercalate (text :: text' :: texts)).toList =
          text.toList ++ (Mark.comma.chars ++ (' ' :: (", ".intercalate (text' :: texts)).toList)) := by
        simp [String.toList_intercalate, Mark.chars]
      rw [hchars]
      exact (htext _ (delimited_cons (by decide) (by decide) _)).append
        ((scans_bracket (by decide) _).append (ih rest hrest).space)

end Spells

/-! ## The text of an expression -/

attribute [simp] Rendering.expr

/-- What is found first is found in the first thing, or among the others. -/
theorem findSome?_cons_eq_or {α β : Type} (f : α → Option β) (a : α) (as : List α) :
    (a :: as).findSome? f = (f a).or (as.findSome? f) := by
  rw [List.findSome?_cons]
  cases f a <;> rfl

namespace Expr

variable {b : Bindings} {e : Expr}

/-- The first unknown access inside an expression is its own, or the first in its direct subexpressions. -/
theorem firstUnknown?_eq (b : Bindings) (e : Expr) :
    e.firstUnknown? b = (e.unknownIntrinsic? b).or (e.children.findSome? (firstUnknown? b)) := by
  have hflat : ∀ es : List Expr, (es.flatMap subexprs).findSome? (unknownIntrinsic? b) = es.findSome? (firstUnknown? b) := by
    intro es
    induction es with
    | nil => rfl
    | cons x es ih =>
      rw [List.flatMap_cons, List.findSome?_append, ih, findSome?_cons_eq_or]
      rfl
  rw [firstUnknown?, subexprs_eq, findSome?_cons_eq_or, hflat]

/-- The first unknown access of a call is that of its callee, looked for in the callee's own access first, or else one in an
argument. -/
theorem firstUnknown?_call (b : Bindings) (span : Span) (callee : Expr) (args : List Expr) :
    (Expr.call span callee args).firstUnknown? b =
      (callee.unknownIntrinsic? b).or ((callee.firstUnknown? b).or (args.findSome? (firstUnknown? b))) := by
  have hcallee : callee.firstUnknown? b = (callee.unknownIntrinsic? b).or (callee.firstUnknown? b) := by
    rw [firstUnknown?_eq, ← Option.or_assoc, Option.or_self]
  have hown : (Expr.call span callee args).unknownIntrinsic? b = none := rfl
  rw [firstUnknown?_eq, children, findSome?_cons_eq_or, hown, Option.none_or, ← Option.or_assoc, ← hcallee]

/-- The expression is written as the tokens of its term, or the first unknown access in it is the failure. -/
def Renders (b : Bindings) (e : Expr) : Prop :=
  Gives (Rendering.expr b e) (e.firstUnknown? b) (Spells · e.term.print)

/-- Several expressions are written as the tokens of their terms. -/
theorem renders_all {es : List Expr} (h : ∀ e ∈ es, e.Renders b) :
    Gives (Rendering.exprs b es) (es.findSome? (firstUnknown? b)) fun texts =>
      List.Forall₂ Spells texts (es.map fun e => e.term.print) := by
  induction es with
  | nil =>
    rw [Rendering.exprs]
    exact .pure .nil
  | cons e es ih =>
    rw [Rendering.exprs, findSome?_cons_eq_or, List.map_cons]
    refine (h e List.mem_cons_self).bind fun text htext => ?_
    exact (ih fun x hx => h x (List.mem_cons_of_mem _ hx)).map fun texts htexts => .cons htext htexts

namespace Renders

variable {span : Span} {target key left right : Expr} {name : Ident} {args : List Expr}

/-- A literal is written as its token. -/
theorem literal {value : Literal} (hcounterpart : (Expr.literal span value).hasCounterpart b = true)
    (hwritable : (Expr.literal span value).Writable) : (Expr.literal span value).Renders b := by
  unfold Renders
  rw [firstUnknown?_eq, Rendering.expr]
  cases value with
  | number text => exact .pure hwritable
  | string value => exact .pure fun rest _ => scans_string value rest
  | bool value =>
    cases value
    · exact .pure (.word "false".toList rfl)
    · exact .pure (.word "true".toList rfl)
  | _ => cases hcounterpart

theorem ident (h : isName name.name = true) : (Expr.ident name).Renders b := by
  unfold Renders
  rw [firstUnknown?_eq, Rendering.expr]
  exact .pure fun rest hrest => scans_name h hrest

theorem this : (Expr.this span).Renders b := by
  unfold Renders
  rw [firstUnknown?_eq, Rendering.expr]
  exact .pure (.word "this".toList rfl)

theorem super : (Expr.super span).Renders b := by
  unfold Renders
  rw [firstUnknown?_eq, Rendering.expr]
  exact .pure (.word "super".toList rfl)

/-- A member is written behind its target. -/
theorem member (h : target.Renders b) (hname : isName name.name = true) : (Expr.member span target name).Renders b := by
  unfold Renders
  rw [firstUnknown?_eq, Rendering.expr, children, findSome?_cons_eq_or, List.findSome?_nil, Option.or_none]
  exact (Gives.failIf _).bind fun _ _ => h.map fun text htext => htext.member hname

/-- An index is written with its key. -/
theorem index (h : target.Renders b) (hkey : key.Renders b) : (Expr.index span target key).Renders b := by
  unfold Renders
  rw [firstUnknown?_eq, Rendering.expr, children, findSome?_cons_eq_or, findSome?_cons_eq_or, List.findSome?_nil,
    Option.or_none]
  exact h.bind fun text htext => hkey.map fun keyText hkeyText => htext.index hkeyText

/-- What stands in parentheses is written in parentheses. -/
theorem paren (h : target.Renders b) : (Expr.paren span target).Renders b := by
  unfold Renders
  rw [firstUnknown?_eq, Rendering.expr, children, findSome?_cons_eq_or, List.findSome?_nil, Option.or_none]
  exact h.map fun text htext => htext.paren

/-- An operation is written with its operands around the operator. -/
theorem binary {op : BinaryOp} {o : Operator} (ho : op.operator? = some o) (hl : left.Renders b) (hr : right.Renders b) :
    (Expr.binary span op left right).Renders b := by
  obtain ⟨opText, hop, hchars⟩ : ∃ text, op.solidity? = some text ∧ text.toList = ' ' :: (o.mark.chars ++ [' ']) := by
    have hmap := op.toList_solidity?
    rw [ho, Option.map_some] at hmap
    exact Option.map_eq_some_iff.mp hmap
  have hoperator : Gives (Rendering.operator op) none (· = opText) := by
    rw [Rendering.operator, hop]
    exact .pure rfl
  unfold Renders
  rw [firstUnknown?_eq, Rendering.expr, children, findSome?_cons_eq_or, findSome?_cons_eq_or, List.findSome?_nil,
    Option.or_none, term, ho]
  refine hl.bind fun leftText hleft => ?_
  refine hoperator.bind (g := right.firstUnknown? b) fun _ heq => ?_
  rw [heq]
  exact hr.map fun rightText hright => hleft.operation hright hchars

/-- A call that is not to an intrinsic is written with its arguments. -/
theorem call (hunbound : target.calledIntrinsic? b = none) (h : target.Renders b) (hargs : ∀ a ∈ args, a.Renders b) :
    (Expr.call span target args).Renders b := by
  unfold Renders
  rw [firstUnknown?_call, Rendering.expr, hunbound]
  refine (Gives.failIf _).bind fun _ _ => h.bind fun text htext => ?_
  refine (renders_all hargs).map fun texts htexts => ?_
  rw [term, terms_eq_map, Term.print, Term.printAll_eq_map, List.map_map]
  exact htext.call (.commas htexts)

end Renders

/-- The operands of an expression stand in it. -/
theorem mem_children_of_mem_operands {c : Expr} (hc : c ∈ e.operands) : c ∈ e.children := by
  cases e with
  | object => cases hc
  | _ => exact hc

/-- An operator that is written at all is written as one of Solidity. -/
theorem exists_operator {op : BinaryOp} (h : op.solidity?.isSome = true) : ∃ o, op.operator? = some o := by
  have hmap := congrArg Option.isSome op.toList_solidity?
  rw [Option.isSome_map, Option.isSome_map, h] at hmap
  exact Option.isSome_iff_exists.mp hmap.symm

/-- An expression that is made only of what Solidity has too is written as the tokens of its term. -/
theorem renders_of_plain {e : Expr} (hplain : e.Plain b) (hspelled : e.Spelled) (hnamed : e.Named) : e.Renders b := by
  have hparts : ∀ c ∈ e.operands, c.Renders b := fun c hc =>
    have hc' := mem_children_of_mem_operands hc
    renders_of_plain (hplain.child hc') (hspelled.child hc') (hspelled.self.2 c hc)
  have hself := hplain.self
  cases e with
  | literal span value => exact .literal hself hspelled.self.1
  | ident name => exact .ident hnamed
  | this span => exact .this
  | super span => exact .super
  | member span target name => exact .member (hparts target List.mem_cons_self) hspelled.self.1
  | index span target key =>
    exact .index (hparts target List.mem_cons_self) (hparts key (List.mem_cons_of_mem _ List.mem_cons_self))
  | paren span inner => exact .paren (hparts inner List.mem_cons_self)
  | binary span op left right =>
    obtain ⟨o, ho⟩ := exists_operator hself
    exact .binary ho (hparts left List.mem_cons_self) (hparts right (List.mem_cons_of_mem _ List.mem_cons_self))
  | call span callee args =>
    refine .call (Option.isNone_iff_eq_none.mp hself) (hparts callee List.mem_cons_self) fun a ha => ?_
    exact hparts a (List.mem_cons_of_mem _ ha)
  | _ => cases hself
termination_by sizeOf e
decreasing_by exact sizeOf_lt_of_mem_children hc'

end Expr

end ContractCompiler
