import ContractCompiler.Proofs.Contract.Rendered
import ContractCompiler.Proofs.Printing.RoundTrip
import ContractCompiler.Proofs.Tree.Equality

/-!
# Reading back the text of an expression

The text of an expression that is made only of what Solidity has too is also an expression of the source language. It is
read back as the expression that was written, with the names of members bare and the comparisons not strict: that is all
that is lost on the way to the text, spans apart.
-/

namespace ContractCompiler

open Token Solidity ContractCompiler.Parser

/-! ## What is written -/

/-- The operator that is read where `op` was written. -/
def BinaryOp.written : BinaryOp → BinaryOp
  | .strictEq => .eq
  | .strictNotEq => .notEq
  | op => op

/-- An operator is read back from the one token that it is written as. -/
theorem BinaryOp.kinds_written {op : BinaryOp} {o : Operator} (h : op.operator? = some o) :
    op.written.kinds = [.mark o.mark] := by
  cases op <;> cases h <;> rfl

/-- It is read back in its tier. -/
theorem BinaryOp.tier?_written (op : BinaryOp) : op.written.tier? = op.tier? := by
  cases op <;> rfl

/-- An assignment is read back as one. -/
theorem BinaryOp.isAssignment_written (op : BinaryOp) : op.written.isAssignment = op.isAssignment := by
  cases op <;> rfl

namespace Expr

mutual

/-- The expression that is read where `e` was written: the names of members are bare, and comparisons are not strict.
What has no counterpart in Solidity stays as it is. -/
@[simp]
def written : Expr → Expr
  | .member span target name => .member span target.written ⟨name.bare, name.span⟩
  | .index span target key => .index span target.written key.written
  | .call span callee args => .call span callee.written (writtenAll args)
  | .binary span op left right => .binary span op.written left.written right.written
  | .paren span inner => .paren span inner.written
  | e => e

/-- What is read where several expressions were written. -/
def writtenAll : List Expr → List Expr
  | [] => []
  | e :: es => e.written :: writtenAll es

end

/-- Several expressions are read back one by one. -/
theorem writtenAll_eq_map (es : List Expr) : writtenAll es = es.map written := by
  induction es with
  | nil => rfl
  | cons e es ih => rw [writtenAll, ih, List.map_cons]

variable {b : Bindings} {e : Expr}

/-- What stands in an expression is read back in its place. -/
theorem children_written (h : e.hasCounterpart b = true) : e.written.children = e.children.map written := by
  cases e with
  | literal | ident | this | super | member | index | paren | binary => rfl
  | call span callee args => rw [written, children, writtenAll_eq_map, children, List.map_cons]
  | _ => cases h

/-- What is read back can be written again. -/
theorem isPrintable_written (h : e.hasCounterpart b = true) : e.written.isPrintable = e.isPrintable := by
  cases e with
  | literal | ident | this | super | member | index | paren | binary | call => rfl
  | _ => cases h

/-- What is read back is as tight as the expression was. -/
theorem rank_written (e : Expr) : e.written.rank = e.rank := by
  cases e with
  | binary span op left right =>
    cases ht : op.tier? with
    | some t => rw [rank_of_tier ht, written, rank_of_tier (op.tier?_written.trans ht)]
    | none => cases op <;> rfl
  | _ => rfl

/-- Everything inside what is read stands for something inside what was written. -/
theorem Plain.subexprs_written {e : Expr} (h : e.Plain b) : e.written.subexprs = e.subexprs.map written := by
  have hparts : ∀ c ∈ e.children, c.written.subexprs = c.subexprs.map written := fun c hc =>
    (h.child hc).subexprs_written
  rw [subexprs_eq, subexprs_eq, children_written h.self, List.map_cons, List.flatMap_map, List.map_flatMap]
  exact congrArg _ (List.flatMap_congr hparts)
termination_by sizeOf e
decreasing_by exact sizeOf_lt_of_mem_children hc

theorem Plain.printable_written (h : e.Plain b) (hprint : e.Printable) : e.written.Printable := by
  intro x hx
  rw [h.subexprs_written] at hx
  obtain ⟨y, hy, rfl⟩ := List.mem_map.mp hx
  rw [isPrintable_written (h y hy)]
  exact hprint y hy

/-- What is read has the tokens of what was written. -/
theorem Plain.print_written {e : Expr} (h : e.Plain b) : e.written.print = e.term.print := by
  have hparts : ∀ c ∈ e.children, c.written.print = c.term.print := fun c hc => (h.child hc).print_written
  have hself := h.self
  cases e with
  | literal | ident | this | super => rfl
  | member span target name =>
    rw [written, print, term, Term.print, hparts target List.mem_cons_self]
  | index span target key =>
    rw [written, print, term, Term.print, hparts target List.mem_cons_self,
      hparts key (List.mem_cons_of_mem _ List.mem_cons_self)]
  | paren span inner =>
    rw [written, print, term, Term.print, hparts inner List.mem_cons_self]
  | binary span op left right =>
    obtain ⟨o, ho⟩ := exists_operator hself
    rw [written, print, term, ho, hparts left List.mem_cons_self,
      hparts right (List.mem_cons_of_mem _ List.mem_cons_self), BinaryOp.kinds_written ho]
    rfl
  | call span callee args =>
    have hargs : (args.map written).map print = (args.map term).map Term.print := by
      rw [List.map_map, List.map_map]
      exact List.map_congr_left fun a ha => hparts a (List.mem_cons_of_mem _ ha)
    rw [written, print, term, Term.print, hparts callee List.mem_cons_self, writtenAll_eq_map, printAll_eq_map,
      terms_eq_map, Term.printAll_eq_map, hargs]
  | _ => cases hself
termination_by sizeOf e
decreasing_by exact sizeOf_lt_of_mem_children hc

/-- Where no operand is too loose in what was written, none is in what is read. -/
theorem Leveled.written (he : e.Leveled) (h : e.Plain b) : e.written.Leveled := by
  induction he with
  | literal span value => exact .literal span value
  | ident name => exact .ident name
  | this span => exact .this span
  | super span => exact .super span
  | member _ hrank ih =>
    exact .member (ih (h.child List.mem_cons_self)) (by rwa [rank_written])
  | index _ hrank _ ih ihkey =>
    refine .index (ih (h.child List.mem_cons_self)) (by rwa [rank_written]) (ihkey (h.child ?_))
    exact List.mem_cons_of_mem _ List.mem_cons_self
  | call _ hrank _ ih ihargs =>
    refine .call (ih (h.child List.mem_cons_self)) (by rwa [rank_written]) ?_
    rw [writtenAll_eq_map, List.forall_mem_map]
    exact fun a ha => ihargs a ha (h.child (List.mem_cons_of_mem _ ha))
  | @operation span op tier left right htier _ hl _ hr ihl ihr =>
    have hleft := ihl (h.child List.mem_cons_self)
    have hright := ihr (h.child (List.mem_cons_of_mem _ List.mem_cons_self))
    exact .operation (op.tier?_written.trans htier) hleft (by rwa [rank_written]) hright (by rwa [rank_written])
  | @assignment span op left right hop _ hl _ ihl ihr =>
    have hleft := ihl (h.child List.mem_cons_self)
    have hright := ihr (h.child (List.mem_cons_of_mem _ List.mem_cons_self))
    exact .assignment (op.isAssignment_written.trans hop) hleft (by rwa [rank_written]) hright
  | paren _ ih => exact .paren (ih (h.child List.mem_cons_self))
  | _ => cases h.self

end Expr

/-! ## Names -/

/-- A word that the scanner takes for a name is one wherever it is written. -/
theorem ofWord_of_lexeme {offset : Nat} {c : Char} {cs : List Char} {name : String}
    (h : (lexeme offset c cs).kind = .ident name) : TokenKind.ofWord name = .ident name := by
  unfold lexeme at h
  split at h
  · rename_i hc
    unfold Lexeme.word at h
    dsimp only at h
    split at h
    · cases h
    · rename_i hword
      cases h
      have hpublic : isPrivateName (String.ofList (c :: cs.takeWhile isWordPart)) = false := by
        simp only [isPrivateName, String.toList_ofList, List.head?_cons, beq_eq_false_iff_ne, ne_eq, Option.some.injEq]
        rintro rfl
        rw [isWordStart_marker] at hc
        cases hc
      rw [TokenKind.ofWord, hpublic, hword]
      rfl
  · repeat' split at h
    all_goals try cases h
    · unfold Lexeme.privateName at h
      split at h <;> cases h
    · unfold Lexeme.mark at h
      split at h <;> cases h

/-- A keyword is the token of its spelling. -/
theorem ofWord_spelling (word : Keyword) : TokenKind.ofWord word.spelling = .keyword word := by
  have hpublic : isPrivateName word.spelling = false := by cases word <;> rfl
  rw [TokenKind.ofWord, hpublic, Keyword.ofSpelling?_spelling]
  rfl

/-- A token that may name a variable may do so wherever its name is written. -/
theorem bindingName?_ofWord {source : String} {t : Token} (ht : t ∈ tokensOf source) {name : String}
    (h : t.kind.bindingName? = some name) : (TokenKind.ofWord name).bindingName? = some name := by
  obtain ⟨scanned, hscanned, rfl⟩ := List.mem_map.mp ht
  cases hkind : scanned.token.kind with
  | ident text =>
    rw [hkind] at h
    cases h
    rcases exists_lexeme_of_mem hscanned with hend | ⟨offset, c, cs, hlexeme⟩
    · rw [hkind] at hend
      cases hend
    · rw [ofWord_of_lexeme (hlexeme.symm.trans hkind)]
      rfl
  | keyword word =>
    rw [hkind] at h
    have hname : name = word.spelling := by
      simp only [TokenKind.bindingName?] at h
      split at h <;> cases h
      rfl
    rw [hname, ofWord_spelling, ← hname]
    exact h
  | _ =>
    rw [hkind] at h
    cases h

/-- The variables inside an expression without object literals may all be written. -/
theorem Expr.Sourced.printable {source : String} {b : Bindings} {e : Expr} (h : e.Sourced (tokensOf source))
    (hnamed : e.NamedIn (tokensOf source)) (hplain : e.Plain b) : e.Printable := by
  have hname : ∀ x : Expr, x.hasCounterpart b = true → x.NamedIn (tokensOf source) → x.isPrintable = true := by
    intro x hx hnamed
    cases x with
    | ident name =>
      obtain ⟨t, ht, hname⟩ := hnamed
      exact beq_iff_eq.mpr (bindingName?_ofWord ht hname)
    | asType | satisfiesType => cases hx
    | _ => rfl
  intro x hx
  refine hname x (hplain x hx) ?_
  rcases mem_subexprs_cases hx with rfl | ⟨y, hy, hchild⟩
  · exact hnamed
  rcases (h y hy).2 x hchild with hx | ⟨key, -, hkey⟩
  · exact hx
  · have hy := hplain y hy
    cases y with
    | object => cases hy
    | _ => cases hkey

/-! ## Right shifts -/

/-- Two kinds in a row that are no parts of a right shift. -/
def TokenKind.Apart (a b : TokenKind) : Prop := a = .mark .gt → b ≠ .mark .gt ∧ b ≠ .mark .ge

/-- No right shift can be read in a text of these kinds, nor across either end of it. -/
structure Parted (ks : List TokenKind) : Prop where
  chain : ks.IsChain TokenKind.Apart
  head : ∀ k ∈ ks.head?, k ≠ .mark .gt ∧ k ≠ .mark .ge
  last : ∀ k ∈ ks.getLast?, k ≠ .mark .gt

namespace Parted

variable {ks ls : List TokenKind} {k : TokenKind}

/-- Without tokens there is no right shift. -/
theorem nil : Parted [] := ⟨.nil, nofun, nofun⟩

theorem single (h : k ≠ .mark .gt) (h' : k ≠ .mark .ge) : Parted [k] :=
  ⟨.singleton k, by simp [h, h'], by simp [h]⟩

/-- Token lists without right shifts have none where they meet. -/
theorem append (h : Parted ks) (h' : Parted ls) : Parted (ks ++ ls) := by
  cases ls with
  | nil => rwa [List.append_nil]
  | cons l ls =>
    refine ⟨List.isChain_append.mpr ⟨h.chain, h'.chain, fun a ha _ _ hgt => absurd hgt (h.last a ha)⟩, ?_, ?_⟩
    · intro k hk
      rw [List.head?_append] at hk
      cases ks with
      | nil => exact h'.head k hk
      | cons k' ks => exact h.head k hk
    · intro k hk
      rw [List.getLast?_append_of_ne_nil _ (List.cons_ne_nil l ls)] at hk
      exact h'.last k hk

/-- A token that is no part of a right shift may stand in front. -/
theorem cons (hk : k ≠ .mark .gt) (hk' : k ≠ .mark .ge) (h : Parted ks) : Parted (k :: ks) := (single hk hk').append h

/-- Any mark may stand between two operands. -/
theorem operation (h : Parted ks) (hks : ks ≠ []) (h' : Parted ls) (hls : ls ≠ []) (mark : Mark) :
    Parted (ks ++ .mark mark :: ls) := by
  have hright : (TokenKind.mark mark :: ls).IsChain TokenKind.Apart :=
    List.isChain_cons.mpr ⟨fun l hl _ => h'.head l hl, h'.chain⟩
  refine ⟨List.isChain_append.mpr ⟨h.chain, hright, fun a ha _ _ hgt => absurd hgt (h.last a ha)⟩, ?_, ?_⟩
  · intro k hk
    rw [List.head?_append_of_ne_nil _ hks] at hk
    exact h.head k hk
  · intro k hk
    rw [List.getLast?_append_of_ne_nil _ (List.cons_ne_nil _ _), List.getLast?_cons_of_ne_nil hls] at hk
    exact h'.last k hk

/-- Nor are there right shifts in lists with commas between them. -/
theorem commas {kinds : List (List TokenKind)} (h : ∀ ks ∈ kinds, Parted ks) : Parted (TokenKind.commas kinds) := by
  induction kinds with
  | nil => exact .nil
  | cons ks rest ih =>
    obtain ⟨hks, hrest⟩ := List.forall_mem_cons.mp h
    cases rest with
    | nil => exact hks
    | cons ls rest => exact hks.append (.cons nofun nofun (ih hrest))

end Parted

/-- The tokens of a term have no right shift in them, and there is at least one of them. -/
theorem Expr.Plain.parted {b : Bindings} {e : Expr} (h : e.Plain b) : Parted e.term.print ∧ e.term.print ≠ [] := by
  have hparts : ∀ c ∈ e.children, Parted c.term.print ∧ c.term.print ≠ [] := fun c hc => (h.child hc).parted
  have hself := h.self
  have hword : ∀ name mark, TokenKind.ofWord name ≠ .mark mark := by
    intro name mark heq
    have hname := TokenKind.memberName?_ofWord name
    rw [heq] at hname
    cases hname
  cases e with
  | literal span value =>
    have hmark : ∀ mark, value.kind ≠ .mark mark := by
      intro mark heq
      have hvalue := value.literal?_kind
      rw [heq] at hvalue
      cases hvalue
    exact ⟨.single (hmark _) (hmark _), List.cons_ne_nil _ _⟩
  | ident name => exact ⟨.single (hword _ _) (hword _ _), List.cons_ne_nil _ _⟩
  | this | super => exact ⟨.single nofun nofun, List.cons_ne_nil _ _⟩
  | member span target name =>
    have htarget := (hparts target List.mem_cons_self).1
    exact ⟨htarget.append (.cons nofun nofun (.single (hword _ _) (hword _ _))), by simp⟩
  | index span target key =>
    have htarget := (hparts target List.mem_cons_self).1
    have hkey := (hparts key (List.mem_cons_of_mem _ List.mem_cons_self)).1
    exact ⟨htarget.append (.cons nofun nofun (hkey.append (.single nofun nofun))), by simp⟩
  | paren span inner =>
    have hinner := (hparts inner List.mem_cons_self).1
    exact ⟨.cons nofun nofun (hinner.append (.single nofun nofun)), by simp⟩
  | binary span op left right =>
    obtain ⟨o, ho⟩ := exists_operator hself
    obtain ⟨hleft, hleft'⟩ := hparts left List.mem_cons_self
    obtain ⟨hright, hright'⟩ := hparts right (List.mem_cons_of_mem _ List.mem_cons_self)
    rw [term, ho]
    exact ⟨hleft.operation hleft' hright hright' o.mark, by simp⟩
  | call span callee args =>
    have hcallee := (hparts callee List.mem_cons_self).1
    have hargs : Parted (TokenKind.commas ((args.map term).map Term.print)) := by
      refine .commas ?_
      rw [List.map_map, List.forall_mem_map]
      exact fun a ha => (hparts a (List.mem_cons_of_mem _ ha)).1
    rw [term, Term.print, terms_eq_map, Term.printAll_eq_map]
    exact ⟨hcallee.append (.cons nofun nofun (hargs.append (.single nofun nofun))), by simp⟩
  | _ => cases hself
termination_by sizeOf e
decreasing_by exact sizeOf_lt_of_mem_children hc

/-! ## Reading the text -/

/-- A semicolon is scanned as one. -/
theorem scanFrom_semicolon (offset : Nat) :
    scanFrom offset [';'] = [⟨⟨.mark .semicolon, ⟨offset, offset + 1⟩, false⟩, []⟩,
      ⟨⟨.endOfInput, ⟨offset + 1, offset + 1⟩, false⟩, []⟩] := by
  rw [scanFrom_eq]
  have hlexeme : ∀ start, lexeme start ';' [] = ⟨.mark .semicolon, [';'], [], []⟩ := fun _ => rfl
  simp only [trivia_of_isVisible (show isVisible ';' = true by decide), hlexeme]
  rw [scanFrom_eq]
  rfl

/-- The tokens of a text of the given kinds that a semicolon follows. -/
theorem laidOut_of_spells {text : String} {kinds : List TokenKind} (h : Spells text kinds) (hparted : Parted kinds) :
    (∀ t ∈ scan (text ++ ";"), t.errors = []) ∧ ∃ ts, ∃ semicolon last : Token, LaidOut ts kinds ∧
      tokensOf (text ++ ";") = ts ++ [semicolon, last] ∧ semicolon.kind = .mark .semicolon ∧
        last.kind = .endOfInput := by
  obtain ⟨ts, hts, hkinds, hclean⟩ := h [';'] (delimited_cons (by decide) (by decide) _) 0
  have hscan : scan (text ++ ";") = ts ++ scanFrom (0 + Text.utf8Length text.toList) [';'] := by
    rw [scan, String.toList_append]
    exact hts
  rw [scanFrom_semicolon] at hscan
  have htokens := congrArg (List.map Scanned.token) hscan
  rw [List.map_append] at htokens
  refine ⟨?_, ts.map Scanned.token, _, _, ⟨?_, ?_, ?_⟩, htokens, rfl, rfl⟩
  · rw [hscan, List.forall_mem_append]
    exact ⟨fun t ht => (hclean t ht).1, by simp⟩
  · rw [List.map_map]
    exact hkinds
  · intro t ht
    obtain ⟨scanned, hscanned, rfl⟩ := List.mem_map.mp (List.mem_of_mem_tail ht)
    exact (hclean scanned hscanned).2
  · have hchain := hparted.chain
    rw [← hkinds, List.isChain_map] at hchain
    rw [List.isChain_map]
    refine hchain.imp fun a c hapart hgt hnext => ?_
    obtain ⟨hne, hne'⟩ := hapart hgt
    rcases hnext with hnext | hnext <;> contradiction

/-- Reading from the start moves over the tokens that spell a legible expression, up to a token that cannot continue it. -/
theorem Legible.reads {e : Expr} (h : Legible e) {ts rest : List Token} {stop : Token} (hts : LaidOut ts e.print)
    (hstop : stop.continuesExpr = false) :
    ∃ e', expression ⟨Cursor.start (ts ++ stop :: rest), [], []⟩ = .ok e' ⟨⟨ts.reverse, stop, rest⟩, [], []⟩ ∧
      e'.erase = e.erase := by
  have hspelled : Spelled ⟨Cursor.start (ts ++ stop :: rest), [], []⟩ e.print ⟨⟨ts.reverse, stop, rest⟩, [], []⟩ := by
    refine ⟨ts, ⟨?_, ?_, rfl, rfl⟩, hts⟩
    · cases ts <;> simp [Cursor.start]
    · cases ts <;> simp [Cursor.start]
  rw [Parser.run_expression]
  exact h.inner hspelled (Nat.lt_succ_self _) (stopsExpr_of_continuesExpr hstop)

/-- An expression of a source text that is made only of what Solidity has too, in which no access is bound, and which
does not stand for a field without a value, is written without a note. The text with a semicolon behind it is scanned
without faults, and reading an expression from its tokens moves over all of them up to the semicolon, records nothing,
and gives what was written, with bare members and comparisons that are not strict. -/
theorem rendered_expression_reads_back (source : String) (b : Bindings) (journal : Journal) {e : Expr}
    (he : e ∈ (parse source).file.exprs.flatMap Expr.subexprs) (hplain : e.Plain b)
    (hunbound : ∀ span target name, .member span target name ∈ e.subexprs → b.get? span = none)
    (hshort : ∀ x ∈ (parse source).file.exprs.flatMap Expr.subexprs, ∀ key, e = .ident key → ¬ x.HasShorthand key) :
    ∃ text, Rendering.expr b e journal = .ok text journal ∧ (∀ t ∈ scan (text ++ ";"), t.errors = []) ∧
      ∃ ts semicolon last e', tokensOf (text ++ ";") = ts ++ [semicolon, last] ∧
        semicolon.kind = .mark .semicolon ∧ last.kind = .endOfInput ∧
        expression ⟨Cursor.start (tokensOf (text ++ ";")), [], []⟩ = .ok e' ⟨⟨ts.reverse, semicolon, [last]⟩, [], []⟩ ∧
        e'.erase = e.written.erase := by
  obtain ⟨hsourced, hleveled⟩ := sourced_parse he
  have hnamed := namedIn_parse he hshort
  have hknown : e.firstUnknown? b = none := by
    rw [Expr.firstUnknown?, List.findSome?_eq_none_iff]
    intro x hx
    cases x with
    | member span target name => simp [Expr.unknownIntrinsic?, hunbound span target name hx]
    | _ => rfl
  have hrenders := Expr.renders_of_plain hplain hsourced.spelled hnamed.named journal
  rw [hknown] at hrenders
  obtain ⟨text, htext, hspells⟩ := hrenders
  obtain ⟨hclean, ts, semicolon, last, hlaid, htokens, hsemicolon, hlast⟩ := laidOut_of_spells hspells hplain.parted.1
  have hlegible := (hleveled.written hplain).legible (hplain.printable_written (hsourced.printable hnamed hplain))
  rw [← hplain.print_written] at hlaid
  have hstop : semicolon.continuesExpr = false := by
    rw [continuesExpr, hsemicolon]
    rfl
  obtain ⟨e', hrun, herase⟩ := hlegible.reads hlaid hstop
  refine ⟨text, htext, hclean, ts, semicolon, last, e', htokens, hsemicolon, hlast, ?_, herase⟩
  rw [htokens]
  exact hrun

/-- The initializer in `class A { x = (a.#if !== "q\n") > f(1 .b)[this]; }`. -/
def privateGuard : Expr :=
  .binary ⟨14, 47⟩ .gt
    (.paren ⟨14, 31⟩ (.binary ⟨15, 30⟩ .strictNotEq
      (.member ⟨15, 20⟩ (.ident ⟨"a", ⟨15, 16⟩⟩) ⟨"#if", ⟨17, 20⟩⟩) (.literal ⟨25, 30⟩ (.string "q\n"))))
    (.index ⟨34, 47⟩
      (.call ⟨34, 41⟩ (.ident ⟨"f", ⟨34, 35⟩⟩) [.member ⟨36, 40⟩ (.literal ⟨36, 37⟩ (.number "1")) ⟨"b", ⟨39, 40⟩⟩])
      (.this ⟨42, 46⟩))

/-- The initializer in `class A { x = (a.#if !== "q\n") > f(1 .b)[this]; }` is read back with a bare name and a plain
comparison. -/
theorem privateGuard_reads_back :
    let exprs := (parse "class A \x7b x = (a.#if !== \x22q\\n\x22) > f(1 .b)[this]; \x7d").file.exprs
    privateGuard ∈ exprs.flatMap Expr.subexprs ∧ privateGuard.Plain .empty ∧
      ∃ text, Rendering.expr .empty privateGuard [] = .ok text [] ∧ (∀ t ∈ scan (text ++ ";"), t.errors = []) ∧
        ∃ ts semicolon last e', tokensOf (text ++ ";") = ts ++ [semicolon, last] ∧
          semicolon.kind = .mark .semicolon ∧ last.kind = .endOfInput ∧
          expression ⟨Cursor.start (tokensOf (text ++ ";")), [], []⟩ = .ok e' ⟨⟨ts.reverse, semicolon, [last]⟩, [], []⟩ ∧
          e'.erase = privateGuard.written.erase := by
  have hexprs : (parse "class A \x7b x = (a.#if !== \x22q\\n\x22) > f(1 .b)[this]; \x7d").file.exprs = [privateGuard] := by
    decide +kernel
  have hmem : privateGuard ∈ (parse "class A \x7b x = (a.#if !== \x22q\\n\x22) > f(1 .b)[this]; \x7d").file.exprs.flatMap
      Expr.subexprs := by
    rw [hexprs]
    exact List.mem_flatMap.mpr ⟨privateGuard, List.mem_singleton.mpr rfl, Expr.mem_subexprs_self _⟩
  have hplain : privateGuard.Plain .empty := by decide
  have hshort : ∀ key, privateGuard ≠ .ident key := by simp [privateGuard]
  exact ⟨hmem, hplain, rendered_expression_reads_back _ .empty [] hmem hplain (fun _ _ _ _ => rfl)
    fun _ _ key h => absurd h (hshort key)⟩

end ContractCompiler
