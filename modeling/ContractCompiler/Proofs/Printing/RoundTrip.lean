import ContractCompiler.Proofs.Printing.Legible

/-!
# Reading back what was written

An expression that is leveled and can be written is read back from its tokens as itself, up to spans. The induction is
on the expression, with one lemma for each form: under the assumption that the parts are legible, the whole is.
-/

namespace ContractCompiler

open ContractCompiler.Parser

/-! ## Primary expressions -/

/-- A name is read as a primary expression. -/
theorem primaryExpr_of_bindingName? {s : ParserState} {name : String} (h : s.here.kind.bindingName? = some name)
    (inner : ExprForm → Parser Expr) : primaryExpr inner s = .ok (.ident ⟨name, s.here.span⟩) s.next := by
  have hident : bindingIdent .expression s = .ok ⟨name, s.here.span⟩ s.next := identBy_eq_ok.mpr ⟨name, h, rfl, rfl⟩
  rw [primaryExpr, run_here, TokenKind.literal?_of_bindingName? h]
  dsimp only
  generalize s.here.kind = k at h
  split
  case h_7 =>
    rw [bind_of_ok hident]
    rfl
  all_goals cases h

namespace Legible

variable {span : Span} {e callee target : Expr} {args : List Expr}

/-- A literal is read back. -/
theorem literal {value : Literal}
    (hopen : Expr.Opening (Expr.literal span value).print (.suffixed ≤ (Expr.literal span value).rank)) :
    Legible (.literal span value) := by
  refine of_primary hopen rfl fun n s s' hs _ => ⟨.literal s.here.span value, ?_, rfl⟩
  have hend : value.kind ≠ .endOfInput := by
    intro hend
    have := Literal.literal?_kind value
    rw [hend] at this
    cases this
  rw [primaryExpr, run_here, hs.here, Literal.literal?_kind, hs.eq_next hend]
  rfl

/-- A name is read back. -/
theorem ident {name : Ident} (hopen : Expr.Opening (Expr.ident name).print (.suffixed ≤ (Expr.ident name).rank))
    (hname : (TokenKind.ofWord name.name).bindingName? = some name.name) : Legible (.ident name) := by
  refine of_primary hopen rfl fun n s s' hs _ => ⟨.ident ⟨name.name, s.here.span⟩, ?_, rfl⟩
  rw [primaryExpr_of_bindingName? (hs.here ▸ hname), hs.eq_next (TokenKind.ofWord_ne_end _)]

/-- The word `this` is read back. -/
theorem this (hopen : Expr.Opening (Expr.this span).print (.suffixed ≤ (Expr.this span).rank)) :
    Legible (.this span) := by
  refine of_primary hopen rfl fun n s s' hs _ => ⟨.this s.here.span, ?_, rfl⟩
  rw [primaryExpr, run_here, hs.here, hs.eq_next (by simp)]
  rfl

/-- The word `super` is read back. -/
theorem super (hopen : Expr.Opening (Expr.super span).print (.suffixed ≤ (Expr.super span).rank)) :
    Legible (.super span) := by
  refine of_primary hopen rfl fun n s s' hs _ => ⟨.super s.here.span, ?_, rfl⟩
  rw [primaryExpr, run_here, hs.here, hs.eq_next (by simp)]
  rfl

/-- What stands in parentheses is read back. -/
theorem paren (hopen : Expr.Opening (Expr.paren span e).print (.suffixed ≤ (Expr.paren span e).rank))
    (he : Legible e) : Legible (.paren span e) := by
  refine of_primary hopen rfl fun n s s' hs hn => ?_
  have hlt := hs.next_lt (by simp)
  obtain ⟨s₁, hs₁, hs'⟩ := (hs.next (by simp)).split _
  obtain ⟨e', hrun, heq⟩ := he.inner hs₁ (Nat.lt_of_lt_of_le hlt hn) (stopsExpr_of_mark hs'.here (by decide))
  refine ⟨.paren (s'.spanFrom s.here.span.start) e', ?_, by simp [heq]⟩
  rw [primaryExpr, run_here, hs.here]
  dsimp only [TokenKind.literal?]
  rw [run_advance, bind_of_ok hrun, bind_of_ok (expect_of_mark _ hs'.here), run_spanFrom, ← hs'.eq_next (by simp)]
  rfl

/-- An array literal is read back if its elements are. -/
theorem array {elements : List Expr}
    (hopen : Expr.Opening (Expr.array span elements).print (.suffixed ≤ (Expr.array span elements).rank))
    (h : ∀ e ∈ elements, Legible e) : Legible (.array span elements) := by
  refine of_primary hopen rfl fun n s s' hs hn => ?_
  simp only [Expr.print, Expr.printAll_eq_map] at hs
  have hlt := hs.next_lt nofun
  obtain ⟨es, hrun, heq⟩ := listUpTo_items .elementSeparator (n := n - 1) (by decide)
    (fun e he => (h e he).head_ne rfl) (fun e he s s' hs hle => (h e he).inner (n := n) hs (by omega)) (hs.next nofun)
    (by omega)
  refine ⟨.array (s'.spanFrom s.here.span.start) es, ?_, by simp [Expr.eraseAll_eq_map, heq]⟩
  rw [primaryExpr, run_here, hs.here]
  dsimp only [TokenKind.literal?]
  rw [run_advance, bind_of_ok hrun, run_spanFrom]
  rfl

/-- An entry of an object literal is read back. -/
theorem field_spelled {f : Field Expr} {n : Nat} {s s' : ParserState} (hf : Legible f.value)
    (hs : Spelled s (Expr.printField f) s') (hn : s.ahead.length ≤ n) (hstops : StopsExpr s') :
    ∃ f', field (exprWithin n) s = .ok f' s' ∧ Expr.eraseField f' = Expr.eraseField f := by
  have hend : TokenKind.ofKey f.key.name ≠ .endOfInput := by
    intro hend
    have := TokenKind.declaredName?_ofKey f.key.name
    rw [hend] at this
    cases this
  have hcolon := hs.next hend
  have hlt := hs.next_lt hend
  have hlt' := hcolon.next_lt nofun
  have hkey : declaredIdent .fieldName s = .ok ⟨f.key.name, s.here.span⟩ s.next :=
    identBy_eq_ok.mpr ⟨f.key.name, by rw [hs.here, TokenKind.declaredName?_ofKey], rfl, rfl⟩
  obtain ⟨e', hrun, heq⟩ := hf.inner (n := n) (hcolon.next nofun) (by omega) hstops
  refine ⟨⟨⟨f.key.name, s.here.span⟩, e'⟩, ?_, by simp [Expr.eraseField, Ident.erase, heq]⟩
  rw [field, bind_of_ok hkey, run_accept, if_pos hcolon.here, if_pos rfl, bind_of_ok hrun]
  rfl

/-- An object literal is read back if its values are. -/
theorem object {fields : List (Field Expr)}
    (hopen : Expr.Opening (Expr.object span fields).print (.suffixed ≤ (Expr.object span fields).rank))
    (h : ∀ f ∈ fields, Legible f.value) : Legible (.object span fields) := by
  refine of_primary hopen rfl fun n s s' hs hn => ?_
  simp only [Expr.print, Expr.printFields_eq_map] at hs
  have hlt := hs.next_lt nofun
  have hopen : ∀ f ∈ fields, ∃ k, (Expr.printField f).head? = some k ∧ k ≠ .mark .rbrace := by
    intro f _
    refine ⟨_, rfl, fun hk => ?_⟩
    have := TokenKind.declaredName?_ofKey f.key.name
    rw [hk] at this
    cases this
  obtain ⟨fs, hrun, heq⟩ := listUpTo_items .fieldSeparator (by decide) hopen
    (fun f hf s s' hs hle => field_spelled (n := n) (h f hf) hs hle) (hs.next nofun) (by omega)
  refine ⟨.object (s'.spanFrom s.here.span.start) fs, ?_, by simp [Expr.eraseFields_eq_map, heq]⟩
  rw [primaryExpr, run_here, hs.here]
  dsimp only [TokenKind.literal?]
  rw [run_advance, bind_of_ok hrun, run_spanFrom]
  rfl

/-- A `new` is read back if its callee and its arguments are. -/
theorem new (hopen : Expr.Opening (Expr.new span callee args).print (.suffixed ≤ (Expr.new span callee args).rank))
    (hcallee : Legible callee) (his : callee.isCallee = true) (hargs : ∀ a ∈ args, Legible a) :
    Legible (.new span callee args) := by
  refine of_primary hopen rfl fun n s s' hs hn => ?_
  simp only [Expr.print, Expr.printAll_eq_map] at hs
  have hlt := hs.next_lt nofun
  obtain ⟨s₁, hs₁, hs'⟩ := (hs.next nofun).split _
  have hlen := hs₁.length_ahead
  have hlt' := hs'.next_lt nofun
  obtain ⟨c, hc, hceq⟩ := (hcallee.callee his hs₁ (n := n) (by omega)).yields fun e' => by
    rw [calleeStep, run_check, hs'.here]
    rfl
  obtain ⟨as, has, haseq⟩ := arguments_items (n := n) hargs (hs'.next nofun) (by omega)
  refine ⟨.new (s'.spanFrom s.here.span.start) c as, ?_, by simp [Expr.eraseAll_eq_map, hceq, haseq]⟩
  rw [primaryExpr, run_here, hs.here]
  dsimp only [TokenKind.literal?]
  obtain ⟨p, s₂, hp, hchain⟩ := bind_eq_ok.mp hc
  have hangles : skipAngles s₁ = .ok () s₁ := by
    rw [skipAngles, run_check, hs'.here]
    rfl
  rw [newExpr_eq, run_here, run_advance, bind_of_ok hp, bind_of_ok hchain, bind_of_ok hangles, run_accept, if_pos hs'.here, if_pos rfl, bind_of_ok has]
  rfl

/-! ## Members, indices and calls -/

/-- Adding one suffix to what is legible. -/
theorem followsSuffixed {ks : List TokenKind} (htarget : Legible target) (hrank : .suffixed ≤ target.rank)
    {k : TokenKind} (hprint : e.print = target.print ++ k :: ks)
    (hstep : ∀ ⦃n : Nat⦄ ⦃s s' : ParserState⦄, Spelled s (k :: ks) s' → s.ahead.length < n → s.here.afterBreak = false →
      ∀ target', target'.erase = target.erase →
        ∃ e', suffix? (exprWithin n) target' s = .ok (some e') s' ∧ e'.erase = e.erase) : FollowsSuffixed e := by
  intro n s s' hs hn
  rw [hprint] at hs
  have hne := htarget.print_ne_nil
  obtain ⟨s₁, hs₁, hs', hline⟩ := hs.split_line _ hne
  have hlen := hs₁.length_ahead
  have hlen' := hs'.length_ahead
  have hpos := List.length_pos_iff.mpr hne
  simp only [List.length_cons] at hlen'
  exact (htarget.suffixed hrank hs₁ hn).extend (by omega) (hstep hs' (by omega) hline)

/-- A member is read back if its target is and needs no parentheses. -/
theorem member {name : Ident}
    (hopen : Expr.Opening (Expr.member span target name).print (.suffixed ≤ (Expr.member span target name).rank))
    (htarget : Legible target) (hrank : .suffixed ≤ target.rank) : Legible (.member span target name) := by
  refine of_suffixed hopen rfl (htarget.followsSuffixed hrank rfl fun n s s' hs _ _ target' heq => ?_) fun his n s s' hs hn => ?_
  · obtain ⟨span', member', hrun, hmember⟩ := memberSuffix_spelled hs nofun target'
    refine ⟨.member span' target' member', ?_, by simp [heq, hmember]⟩
    rw [suffix?, run_here, hs.here]
    dsimp only
    rw [bind_of_ok hrun]
    rfl
  · obtain ⟨s₁, hs₁, hs'⟩ := hs.split target.print
    have hlen := hs'.length_ahead
    refine (htarget.callee his hs₁ hn).extend (by simp at hlen; omega) fun target' heq => ?_
    obtain ⟨span', member', hrun, hmember⟩ := memberSuffix_spelled hs' nofun target'
    refine ⟨.member span' target' member', ?_, by simp [heq, hmember]⟩
    rw [calleeStep, run_check, hs'.here, if_pos (decide_eq_true rfl), bind_of_ok hrun]
    rfl

/-- The optional form of a link takes the place of `.`, or stands before the bracket. -/
theorem optionalLink_eq {link e' : Expr} {n : Nat} {s s' : ParserState} (hs : s.here.kind = .mark .questionDot)
    (h : optionalLink (exprWithin n) target s = .ok link s') (heq : link.erase = e'.erase) :
    ∃ link', suffix? (exprWithin n) target s = .ok (some link') s' ∧ link'.erase = e'.erase := by
  refine ⟨link, ?_, heq⟩
  rw [suffix?, run_here, hs]
  dsimp only
  rw [bind_of_ok h]
  rfl

theorem optionalMember {name : Ident} {inside : Span}
    (hopen : Expr.Opening (Expr.optionalChain span (.member inside target name)).print (.suffixed ≤ Rank.suffixed))
    (htarget : Legible target) (hrank : .suffixed ≤ target.rank) :
    Legible (.optionalChain span (.member inside target name)) := by
  refine of_suffixed hopen rfl (htarget.followsSuffixed hrank rfl fun n s s' hs _ _ target' heq => ?_) nofun
  obtain ⟨span', member', hrun, hmember⟩ := memberSuffix_spelled hs nofun target'
  have hword : s.kindAt 1 = .ofWord name.name := hs.kindAt rfl
  have hlink : optionalLink (exprWithin n) target' s = .ok (.optionalChain span' (.member span' target' member')) s' := by
    rw [optionalLink, run_kindAt, hword]
    have hname := TokenKind.memberName?_ofWord name.name
    generalize TokenKind.ofWord name.name = k at hname
    split
    · cases hname
    · cases hname
    · rw [bind_of_ok hrun]
      rfl
  exact optionalLink_eq hs.here hlink (by simp [heq, hmember])

theorem index {key : Expr}
    (hopen : Expr.Opening (Expr.index span target key).print (.suffixed ≤ (Expr.index span target key).rank))
    (htarget : Legible target) (hrank : .suffixed ≤ target.rank) (hkey : Legible key) :
    Legible (.index span target key) := by
  refine of_suffixed hopen rfl (htarget.followsSuffixed hrank rfl fun n s s' hs hn _ target' heq => ?_) nofun
  have hlt := hs.next_lt nofun
  obtain ⟨span', key', hrun, hkey'⟩ := indexSuffix_spelled (n := n) hkey (hs.next nofun) (by omega) target'
  refine ⟨.index span' target' key', ?_, by simp [heq, hkey']⟩
  rw [suffix?, run_here, hs.here]
  dsimp only
  rw [run_advance, bind_of_ok hrun]
  rfl

theorem optionalIndex {key : Expr} {inside : Span}
    (hopen : Expr.Opening (Expr.optionalChain span (.index inside target key)).print (.suffixed ≤ Rank.suffixed))
    (htarget : Legible target) (hrank : .suffixed ≤ target.rank) (hkey : Legible key) :
    Legible (.optionalChain span (.index inside target key)) := by
  refine of_suffixed hopen rfl (htarget.followsSuffixed hrank rfl fun n s s' hs hn _ target' heq => ?_) nofun
  have hnext := hs.next nofun
  have hlt := hs.next_lt nofun
  have hlt' := hnext.next_lt nofun
  obtain ⟨span', key', hrun, hkey'⟩ := indexSuffix_spelled (n := n) hkey (hnext.next nofun) (by omega) target'
  have hlink : optionalLink (exprWithin n) target' s = .ok (.optionalChain span' (.index span' target' key')) s' := by
    rw [optionalLink, run_kindAt, hs.kindAt (n := 1) rfl]
    dsimp only
    rw [run_advanceTwice, bind_of_ok hrun]
    rfl
  exact optionalLink_eq hs.here hlink (by simp [heq, hkey'])

theorem call (hopen : Expr.Opening (Expr.call span target args).print (.suffixed ≤ (Expr.call span target args).rank))
    (htarget : Legible target) (hrank : .suffixed ≤ target.rank) (hargs : ∀ a ∈ args, Legible a) :
    Legible (.call span target args) := by
  have hprint : (Expr.call span target args).print =
      target.print ++ TokenKind.mark .lparen :: (TokenKind.commas (args.map Expr.print) ++ [TokenKind.mark .rparen]) := by
    rw [Expr.print, Expr.printAll_eq_map]
  refine of_suffixed hopen rfl (htarget.followsSuffixed hrank hprint fun n s s' hs hn _ target' heq => ?_) nofun
  have hlt := hs.next_lt nofun
  obtain ⟨span', args', hrun, hargs'⟩ := callSuffix_spelled (n := n) hargs (hs.next nofun) (by omega) target'
  refine ⟨.call span' target' args', ?_, by simp [Expr.eraseAll_eq_map, heq, hargs']⟩
  rw [suffix?, run_here, hs.here]
  dsimp only
  rw [run_advance, bind_of_ok hrun]
  rfl

theorem optionalCall {inside : Span}
    (hopen : Expr.Opening (Expr.optionalChain span (.call inside target args)).print (.suffixed ≤ Rank.suffixed))
    (htarget : Legible target) (hrank : .suffixed ≤ target.rank) (hargs : ∀ a ∈ args, Legible a) :
    Legible (.optionalChain span (.call inside target args)) := by
  have hprint : (Expr.optionalChain span (.call inside target args)).print = target.print ++
      TokenKind.mark .questionDot :: .mark .lparen :: (TokenKind.commas (args.map Expr.print) ++ [TokenKind.mark .rparen]) := by
    rw [Expr.print, Expr.printAll_eq_map]
  refine of_suffixed hopen rfl (htarget.followsSuffixed hrank hprint fun n s s' hs hn _ target' heq => ?_) nofun
  have hnext := hs.next nofun
  have hlt := hs.next_lt nofun
  have hlt' := hnext.next_lt nofun
  obtain ⟨span', args', hrun, hargs'⟩ := callSuffix_spelled (n := n) hargs (hnext.next nofun) (by omega) target'
  have hlink : optionalLink (exprWithin n) target' s = .ok (.optionalChain span' (.call span' target' args')) s' := by
    rw [optionalLink, run_kindAt, hs.kindAt (n := 1) rfl]
    dsimp only
    rw [run_advanceTwice, bind_of_ok hrun]
    rfl
  exact optionalLink_eq hs.here hlink (by simp [Expr.eraseAll_eq_map, heq, hargs'])

theorem nonNull (hopen : Expr.Opening (Expr.nonNull span e).print (.suffixed ≤ (Expr.nonNull span e).rank))
    (he : Legible e) (hrank : .suffixed ≤ e.rank) : Legible (.nonNull span e) := by
  refine of_suffixed hopen rfl (he.followsSuffixed hrank rfl fun n s s' hs _ hline e' heq => ?_)
    fun hcallee => absurd hcallee Bool.false_ne_true
  refine ⟨.nonNull (s'.spanFrom e'.span.start) e', ?_, by simp [heq]⟩
  rw [suffix?, run_here, hs.here]
  dsimp only
  rw [if_neg (by rw [hline]; exact Bool.false_ne_true), run_advance, run_spanFrom, hs.eq_next (by simp)]
  rfl

/-! ## Operators -/

/-- A prefix operator is read back with an operand that needs no parentheses. -/
theorem prefixed {op : UnaryOp}
    (hopen : Expr.Opening (Expr.unary span op e).print (.suffixed ≤ (Expr.unary span op e).rank)) (he : Legible e)
    (hrank : .unary ≤ e.rank) : Legible (.unary span op e) := by
  refine of_unary hopen rfl fun n s s' hs hn hstops => ?_
  have hend : op.kind ≠ .endOfInput := by cases op <;> nofun
  have hlt := hs.next_lt hend
  obtain ⟨e', hrun, heq⟩ := he.innerUnary (n := n) hrank (hs.next hend) (by omega) hstops
  refine ⟨.unary (s'.spanFrom s.here.span.start) op e', ?_, by simp [heq]⟩
  rw [unaryExpr, run_here, hs.here, UnaryOp.unaryOp?_kind]
  dsimp only
  rw [run_advance, bind_of_ok hrun]
  rfl

theorem leading {op : UpdateOp}
    (hopen : Expr.Opening (Expr.update span op true e).print (.suffixed ≤ (Expr.update span op true e).rank))
    (he : Legible e) (hrank : .unary ≤ e.rank) : Legible (.update span op true e) := by
  refine of_unary hopen rfl fun n s s' hs hn hstops => ?_
  have hend : op.kind ≠ .endOfInput := by cases op <;> nofun
  have hlt := hs.next_lt hend
  obtain ⟨e', hrun, heq⟩ := he.innerUnary (n := n) hrank (hs.next hend) (by omega) hstops
  refine ⟨.update (s'.spanFrom s.here.span.start) op true e', ?_, by simp [heq]⟩
  rw [unaryExpr, run_here, hs.here, UpdateOp.unaryOp?_kind, UpdateOp.updateOp?_kind]
  dsimp only
  rw [run_advance, bind_of_ok hrun]
  rfl

theorem trailing {op : UpdateOp}
    (hopen : Expr.Opening (Expr.update span op false e).print (.suffixed ≤ (Expr.update span op false e).rank))
    (he : Legible e) (hrank : .suffixed ≤ e.rank) : Legible (.update span op false e) := by
  refine of_unary hopen rfl fun n s s' hs hn _ => ?_
  have hend : op.kind ≠ .endOfInput := by cases op <;> nofun
  obtain ⟨s₁, hs₁, hs', hline⟩ := hs.split_line e.print he.print_ne_nil
  have hstops : StopsSuffix s₁ := by
    constructor <;> rw [hs'.here] <;> cases op <;> first | decide | nofun
  obtain ⟨e', hrun, heq⟩ := (he.suffixed hrank hs₁ hn).yields fun e' => suffix?_of_stops hstops _ e'
  obtain ⟨k, hk, -, hprimary⟩ := he.opening
  have hprimary := hprimary hrank
  refine ⟨.update (s'.spanFrom s.here.span.start) op false e', ?_, by simp [heq]⟩
  rw [unaryExpr, run_here, hs₁.here_of_head? hk, TokenKind.unaryOp?_of_opensPrimary hprimary,
    TokenKind.updateOp?_of_opensPrimary hprimary]
  dsimp only
  rw [bind_of_ok hrun, run_here, hs'.here, UpdateOp.updateOp?_kind]
  dsimp only
  rw [if_neg (by rw [hline]; exact Bool.false_ne_true), run_advance, hs'.eq_next hend]
  rfl

/-- A power is read back if its left operand is tighter and its right one no looser. -/
theorem power {left right : Expr}
    (hopen : Expr.Opening (Expr.binary span .exp left right).print (.suffixed ≤ (Expr.binary span .exp left right).rank))
    (hleft : Legible left) (hlrank : .unary ≤ left.rank) (hright : Legible right) (hrrank : .power ≤ right.rank) :
    Legible (.binary span .exp left right) := by
  refine of_power hopen rfl fun n s s' hs hn hstops => ?_
  obtain ⟨s₁, hs₁, hs'⟩ := hs.split left.print
  have hlt := hs'.next_lt nofun
  have hlen := hs₁.length_ahead
  obtain ⟨l, hl, hleq⟩ := hleft.unary hlrank hs₁ hn (Spelled.stopsUnary_of_op hs')
  obtain ⟨r, hr, hreq⟩ := hright.innerPower (n := n) hrrank (hs'.next nofun) (by omega) hstops
  refine ⟨.binary (l.span.through r.span) .exp l r, ?_, by simp [hleq, hreq]⟩
  show exponentExpr (exprWithin n) s = _
  rw [exponentExpr, bind_of_ok hl, run_accept, if_pos hs'.here, if_pos rfl, bind_of_ok hr]
  rfl

/-- An operation is read back if its right operand is tighter and its left one no looser. -/
theorem operation {op : BinaryOp} {tier : Tier} {left right : Expr}
    (hopen : Expr.Opening (Expr.binary span op left right).print (.suffixed ≤ (Expr.binary span op left right).rank))
    (htier : op.tier? = some tier) (hleft : Legible left) (hlrank : .tier tier ≤ left.rank) (hright : Legible right)
    (hrrank : .tier tier < right.rank) : Legible (.binary span op left right) := by
  refine of_tier hopen (Expr.rank_of_tier htier span left right) fun n s s' hs hn hstops => ?_
  obtain ⟨s₁, hs₁, hs'⟩ := hs.split left.print
  obtain ⟨s₂, hs₂, hs₃⟩ := hs'.split _
  obtain ⟨k, ks, hks, hopens⟩ := hright.exists_print_eq
  rw [hks] at hs'
  have hlen := hs₁.length_ahead
  have hlen' := hs'.length_ahead
  have hlen₂ := hs₂.length_ahead
  simp only [List.length_append, List.length_cons] at hlen'
  refine (hleft.tier tier hlrank hs₁ hn (hs'.stopsFrom_of_tier hopens htier)).extend (by omega) fun l hleq => ?_
  have hright' := hright.binary (tier.rank + 1) (Nat.succ_le_succ tier.rank_le) hrrank hs₃ (n := n) (by omega) hstops
  obtain ⟨r, hr, hreq⟩ := hright'
  refine ⟨.binary (l.span.through r.span) op l r, ?_, by simp [hleq, hreq]⟩
  obtain ⟨has, hsat, -⟩ := hs'.here_of_op
  have hop : s₁.binaryOp? tier = some (op, op.kinds.length) := by rw [hs'.binaryOp? hopens, if_pos htier]
  rw [tierStep_eq_operation? fun _ => .inr ⟨has, hsat⟩, operation?, run_get, hop]
  dsimp only
  rw [bind_of_ok (hs₂.advanceBy op.end_not_mem_kinds), bind_of_ok hr]
  rfl

/-- The test of a conditional or the target of an assignment is read as far as it goes. -/
theorem yieldsTest {n : Nat} {s s' : ParserState} (h : Legible e) (hrank : .assignment < e.rank)
    (hs : Spelled s e.print s') (hn : s.ahead.length ≤ n) (hstops : StopsFrom 0 s') :
    Yields (binaryExpr (exprWithin n) Tier.all) e s s' := h.binary 0 (Nat.zero_le _) hrank hs hn hstops

/-- A conditional is read back if its test is no assignment. -/
theorem conditional {test consequent alternate : Expr}
    (hopen : Expr.Opening (Expr.conditional span test consequent alternate).print
      (.suffixed ≤ (Expr.conditional span test consequent alternate).rank))
    (htest : Legible test) (hrank : .assignment < test.rank) (hthen : Legible consequent) (helse : Legible alternate) :
    Legible (.conditional span test consequent alternate) := by
  refine of_expr hopen rfl fun n s s' hs hn hstops => ?_
  obtain ⟨s₁, hs₁, hs'⟩ := hs.split test.print
  obtain ⟨s₂, hs₂, hs₃⟩ := (hs'.next nofun).split _
  have hlen := hs₁.length_ahead
  have hlen₂ := hs₂.length_ahead
  have hlt := hs'.next_lt nofun
  have hlt₃ := hs₃.next_lt nofun
  obtain ⟨t, ht, hteq⟩ := htest.yieldsTest hrank hs₁ hn (stopsFrom_of_question hs'.here)
  obtain ⟨c, hc, hceq⟩ := hthen.inner (n := n) hs₂ (by omega) (stopsExpr_of_mark hs₃.here (by decide))
  obtain ⟨a, ha, haeq⟩ := helse.inner (n := n) (hs₃.next nofun) (by omega) hstops
  refine ⟨.conditional (t.span.through a.span) t c a, ?_, by simp [hteq, hceq, haeq]⟩
  have hcond : conditionalExpr (exprWithin n) s = .ok (.conditional (t.span.through a.span) t c a) s' := by
    rw [conditionalExpr, bind_of_ok ht, run_accept, if_pos hs'.here, if_pos rfl, bind_of_ok hc,
      bind_of_ok (expect_of_mark _ hs₃.here), bind_of_ok ha]
    rfl
  rw [assignmentExpr, bind_of_ok hcond, run_get, hstops.assign]
  rfl

/-- An assignment is read back if its left side is no assignment. -/
theorem assignment {op : BinaryOp} {left right : Expr}
    (hopen : Expr.Opening (Expr.binary span op left right).print (.suffixed ≤ (Expr.binary span op left right).rank))
    (hop : op.isAssignment = true) (hleft : Legible left) (hrank : .assignment < left.rank) (hright : Legible right) :
    Legible (.binary span op left right) := by
  refine of_expr hopen (Expr.rank_of_isAssignment hop span left right) fun n s s' hs hn hstops => ?_
  obtain ⟨s₁, hs₁, hs'⟩ := hs.split left.print
  obtain ⟨s₂, hs₂, hs₃⟩ := hs'.split _
  obtain ⟨k, ks, hks, hopens⟩ := hright.exists_print_eq
  rw [hks] at hs'
  have hlen := hs₁.length_ahead
  have hlen₂ := hs₂.length_ahead
  have hpos := List.length_pos_iff.mpr hleft.print_ne_nil
  obtain ⟨l, hl, hleq⟩ := hleft.yieldsTest hrank hs₁ hn (hs'.stopsFrom_of_assignment hopens hop)
  obtain ⟨r, hr, hreq⟩ := hright.inner (n := n) hs₃ (by omega) hstops
  refine ⟨.binary (l.span.through r.span) op l r, ?_, by simp [hleq, hreq]⟩
  obtain ⟨-, -, hquestion, -⟩ := hs'.here_of_op
  have hcond : conditionalExpr (exprWithin n) s = .ok l s₁ := by
    rw [conditionalExpr, bind_of_ok hl, run_accept, if_neg hquestion]
    rfl
  rw [assignmentExpr, bind_of_ok hcond, run_get, hs'.assignOp? hopens, if_pos hop]
  dsimp only
  rw [bind_of_ok (hs₂.advanceBy op.end_not_mem_kinds), bind_of_ok hr]
  rfl

end Legible

/-! ## The whole expression -/

/-- Both an expression and the optional form of it, if it is a link, are legible. -/
theorem Expr.Leveled.legible_links {e : Expr} (he : e.Leveled) : e.Printable →
    Legible e ∧ ∀ span, e.isLink = true → Legible (.optionalChain span e) := by
  induction he with
  | literal span value => exact fun h => ⟨.literal ((Leveled.literal span value).opening h), not_isLink rfl⟩
  | ident name => exact fun h => ⟨.ident ((Leveled.ident name).opening h) (eq_of_beq h.self), not_isLink rfl⟩
  | this span => exact fun h => ⟨.this ((Leveled.this span).opening h), not_isLink rfl⟩
  | super span => exact fun h => ⟨.super ((Leveled.super span).opening h), not_isLink rfl⟩
  | member htarget hrank ih =>
    intro h
    have htarget' := (ih (h.child (by simp [children]))).1
    have hopens := (Leveled.member htarget hrank).openings h
    exact ⟨.member hopens.1 htarget' hrank, fun span hlink => .optionalMember (hopens.2 span hlink) htarget' hrank⟩
  | index htarget hrank hkey ih ihkey =>
    intro h
    have htarget' := (ih (h.child (by simp [children]))).1
    have hkey' := (ihkey (h.child (by simp [children]))).1
    have hopens := (Leveled.index htarget hrank hkey).openings h
    exact ⟨.index hopens.1 htarget' hrank hkey',
      fun span hlink => .optionalIndex (hopens.2 span hlink) htarget' hrank hkey'⟩
  | call htarget hrank hargs ih ihargs =>
    intro h
    have htarget' := (ih (h.child (by simp [children]))).1
    have hargs' : ∀ a ∈ _, Legible a := fun a ha => (ihargs a ha (h.child (by simp [children, ha]))).1
    have hopens := (Leveled.call htarget hrank hargs).openings h
    exact ⟨.call hopens.1 htarget' hrank hargs',
      fun span hlink => .optionalCall (hopens.2 span hlink) htarget' hrank hargs'⟩
  | operation htier hleft hlrank hright hrrank ihl ihr =>
    intro h
    have hl := (ihl (h.child (by simp [children]))).1
    have hr := (ihr (h.child (by simp [children]))).1
    exact ⟨.operation ((Leveled.operation htier hleft hlrank hright hrrank).opening h) htier hl hlrank hr hrrank, not_isLink rfl⟩
  | power hleft hlrank hright hrrank ihl ihr =>
    intro h
    have hl := (ihl (h.child (by simp [children]))).1
    have hr := (ihr (h.child (by simp [children]))).1
    exact ⟨.power ((Leveled.power hleft hlrank hright hrrank).opening h) hl hlrank hr hrrank, not_isLink rfl⟩
  | assignment hop hleft hlrank hright ihl ihr =>
    intro h
    have hl := (ihl (h.child (by simp [children]))).1
    have hr := (ihr (h.child (by simp [children]))).1
    exact ⟨.assignment ((Leveled.assignment hop hleft hlrank hright).opening h) hop hl hlrank hr, not_isLink rfl⟩
  | unary he hrank ih =>
    intro h
    exact ⟨.prefixed ((Leveled.unary he hrank).opening h) (ih (h.child (by simp [children]))).1 hrank, not_isLink rfl⟩
  | leading he hrank ih =>
    intro h
    exact ⟨.leading ((Leveled.leading he hrank).opening h) (ih (h.child (by simp [children]))).1 hrank, not_isLink rfl⟩
  | trailing he hrank ih =>
    intro h
    exact ⟨.trailing ((Leveled.trailing he hrank).opening h) (ih (h.child (by simp [children]))).1 hrank, not_isLink rfl⟩
  | conditional htest hrank hthen helse iht ihc iha =>
    intro h
    have ht := (iht (h.child (by simp [children]))).1
    have hc := (ihc (h.child (by simp [children]))).1
    have ha := (iha (h.child (by simp [children]))).1
    exact ⟨.conditional ((Leveled.conditional htest hrank hthen helse).opening h) ht hrank hc ha, not_isLink rfl⟩
  | paren he ih =>
    intro h
    exact ⟨.paren ((Leveled.paren he).opening h) (ih (h.child (by simp [children]))).1, not_isLink rfl⟩
  | array helements ih =>
    intro h
    exact ⟨.array ((Leveled.array helements).opening h) fun a ha => (ih a ha (h.child (by simp [children, ha]))).1, not_isLink rfl⟩
  | object hfields ih =>
    intro h
    refine ⟨.object ((Leveled.object hfields).opening h) fun f hf => (ih f hf (h.child ?_)).1, not_isLink rfl⟩
    exact List.mem_map_of_mem hf
  | new hcallee his hargs ih ihargs =>
    intro h
    have hcallee' := (ih (h.child (by simp [children]))).1
    exact ⟨.new ((Leveled.new hcallee his hargs).opening h) hcallee' his
      fun a ha => (ihargs a ha (h.child (by simp [children, ha]))).1, not_isLink rfl⟩
  | asType | satisfiesType => exact fun h => absurd h.self Bool.false_ne_true
  | nonNull he hrank ih =>
    intro h
    exact ⟨.nonNull ((Leveled.nonNull he hrank).opening h) (ih (h.child (by simp [children]))).1 hrank, not_isLink rfl⟩
  | optionalChain _ hlink ih =>
    intro h
    exact ⟨(ih (h.child (by simp [children]))).2 _ hlink, not_isLink rfl⟩

/-- An expression that is leveled and can be written is legible. -/
theorem Expr.Leveled.legible {e : Expr} (he : e.Leveled) (hprint : e.Printable) : Legible e :=
  (he.legible_links hprint).1

/-- Tokens of the given kinds, each one byte long and right after the other. -/
def Token.row (start : Nat) : List TokenKind → List Token
  | [] => []
  | k :: ks => ⟨k, ⟨start, start + 1⟩, false⟩ :: row (start + 1) ks

/-- Every text can be laid out so that its tokens are on one line and its shifts joined. -/
theorem laidOut_row (ks : List TokenKind) (start : Nat) : LaidOut (Token.row start ks) ks := by
  induction ks generalizing start with
  | nil => exact ⟨rfl, List.forall_mem_nil _, .nil⟩
  | cons k ks ih =>
    obtain ⟨hkinds, -, hjoined⟩ := ih (start + 1)
    refine ⟨by simp [Token.row, hkinds], ?_, ?_⟩
    · intro t ht
      have hbreaks : ∀ (ks : List TokenKind) (n : Nat), ∀ t ∈ Token.row n ks, t.afterBreak = false := by
        intro ks
        induction ks with
        | nil => exact fun _ => List.forall_mem_nil _
        | cons k ks ih =>
          intro n t ht
          rcases List.mem_cons.mp ht with rfl | ht
          · rfl
          · exact ih _ t ht
      exact hbreaks ks _ t ht
    · cases ks with
      | nil => exact .singleton _
      | cons l ls => exact List.isChain_cons_cons.mpr ⟨fun _ _ => rfl, hjoined⟩

/-- Where a legible expression is written on one line and followed by a token that cannot continue an expression, it is read
back. -/
theorem Legible.read_back {e : Expr} (h : Legible e) {ts rest : List Token} {stop : Token} (hts : LaidOut ts e.print)
    (hstop : stop.continuesExpr = false) {s : ParserState} (hs : s.here :: s.ahead = ts ++ stop :: rest) :
    ∃ e', expression s = .ok e' { s with behind := ts.reverse ++ s.behind, here := stop, ahead := rest } ∧
      e'.erase = e.erase := by
  have hspelled : Spelled s e.print { s with behind := ts.reverse ++ s.behind, here := stop, ahead := rest } :=
    ⟨ts, ⟨rfl, hs, rfl, rfl⟩, hts⟩
  rw [run_expression]
  exact h.inner hspelled (Nat.lt_succ_self s.ahead.length) (stopsExpr_of_continuesExpr hstop)

/-- Reading is the inverse of writing: where a leveled expression is written on one line and followed by a token that
cannot continue an expression, reading an expression moves over exactly its tokens, records nothing, and gives the
expression up to spans. -/
theorem expression_reads_back {e : Expr} (hlevel : e.Leveled) (hprint : e.Printable) {ts rest : List Token}
    {stop : Token} (hts : LaidOut ts e.print) (hstop : stop.continuesExpr = false) {s : ParserState}
    (hs : s.here :: s.ahead = ts ++ stop :: rest) :
    ∃ e', expression s = .ok e' { s with behind := ts.reverse ++ s.behind, here := stop, ahead := rest } ∧
      e'.erase = e.erase :=
  (hlevel.legible hprint).read_back hts hstop hs

/-- The expression `a >>= -b ** c >>> d ? new N.M(x, [y]) : f?.[g]!++`. -/
def shiftAssignment : Expr :=
  let span : Span := ⟨0, 0⟩
  let name (text : String) : Expr := .ident ⟨text, span⟩
  .binary span .shrAssign (name "a")
    (.conditional span
      (.binary span .ushr (.binary span .exp (.unary span .neg (name "b")) (name "c")) (name "d"))
      (.new span (.member span (name "N") ⟨"M", span⟩) [name "x", .array span [name "y"]])
      (.update span .increment false (.nonNull span (.optionalChain span (.index span (name "f") (name "g"))))))

/-- The expression `a >>= -b ** c >>> d ? new N.M(x, [y]) : f?.[g]!++` is read back. -/
theorem shiftAssignment_reads_back :
    let row := Token.row 1 shiftAssignment.print
    let stop : Token := ⟨.mark .semicolon, ⟨40, 41⟩, false⟩
    ∃ e', expression ⟨Cursor.start (row ++ [stop]), [], []⟩ = .ok e' ⟨⟨row.reverse, stop, []⟩, [], []⟩ ∧
      e'.erase = shiftAssignment.erase := by
  have names : ∀ text, (Expr.ident ⟨text, ⟨0, 0⟩⟩).Leveled := fun _ => .ident _
  have hlevel : shiftAssignment.Leveled :=
    .assignment rfl (names _) (by decide)
      (.conditional
        (.operation rfl (.power (.unary (names _) (by decide)) (by decide) (names _) (by decide)) (by decide) (names _)
          (by decide))
        (by decide)
        (.new (.member (names _) (by decide)) rfl (by simp [Expr.Leveled.ident, Expr.Leveled.array]))
        (.trailing (.nonNull (.optionalChain (.index (names _) (by decide) (names _)) rfl) (by decide)) (by decide)))
  have hprint : shiftAssignment.Printable := by decide
  exact expression_reads_back hlevel hprint (laidOut_row _ 1) rfl rfl

/-- A sum under `!` is written `a + b!`, and there `!` belongs to `b` alone: the sum is looser than its place allows, though it
is leveled itself. -/
theorem sum_under_bang_regrouped :
    let name (text : String) : Expr := .ident ⟨text, ⟨0, 0⟩⟩
    let sum := Expr.binary ⟨0, 0⟩ .add (name "a") (name "b")
    let row := Token.row 1 (Expr.nonNull ⟨0, 0⟩ sum).print
    let stop : Token := ⟨.mark .semicolon, ⟨40, 41⟩, false⟩
    sum.Leveled ∧ (Expr.nonNull ⟨0, 0⟩ sum).Printable ∧
      ∃ e', expression ⟨Cursor.start (row ++ [stop]), [], []⟩ = .ok e' ⟨⟨row.reverse, stop, []⟩, [], []⟩ ∧
        e'.erase = .binary ⟨0, 0⟩ .add (name "a") (.nonNull ⟨0, 0⟩ (name "b")) ∧
        e'.erase ≠ (Expr.nonNull ⟨0, 0⟩ sum).erase := by
  intro name sum row stop
  have names : ∀ text, (name text).Leveled := fun _ => .ident _
  -- the tokens are also those of the tree that is read
  have hregrouped : (Expr.binary ⟨0, 0⟩ .add (name "a") (.nonNull ⟨0, 0⟩ (name "b"))).Leveled :=
    .operation rfl (names _) (by decide) (.nonNull (names _) (by decide)) (by decide)
  obtain ⟨e', hread, herase⟩ := (hregrouped.legible (by decide)).read_back (s := ⟨Cursor.start (row ++ [stop]), [], []⟩)
    (laidOut_row _ 1) rfl rfl
  refine ⟨.operation rfl (names _) (by decide) (names _) (by decide), by decide, e', hread, herase, ?_⟩
  rw [herase]
  intro heq
  cases heq

end ContractCompiler
