import ContractCompiler.Proofs.Printing.Print
import ContractCompiler.Proofs.Reading.ExpressionPhrases
import Mathlib.Data.List.Chain

/-!
# Tokens that spell a text

`Spelled s ks s'` says that the tokens between two states of a parser have the kinds `ks`, that no line break falls
between them, and that the parts of a right shift stand together. What an operator spelled so is taken for, and where
an expression ends, follows from the kinds alone.
-/

namespace ContractCompiler

/-- `s'` is the state after `s` has moved over the tokens `ts`, and nothing else has changed. -/
structure Moved (s : ParserState) (ts : List Token) (s' : ParserState) : Prop where
  behind : s'.behind = ts.reverse ++ s.behind
  tokens : s.here :: s.ahead = ts ++ s'.here :: s'.ahead
  errors : s'.errors = s.errors
  journal : s'.journal = s.journal

namespace Moved

variable {s s' : ParserState} {t : Token} {ts us : List Token}

/-- Without tokens nothing has moved. -/
theorem eq_of_nil (h : Moved s [] s') : s' = s := by
  obtain ⟨⟨b, x, a⟩, e, j⟩ := s
  obtain ⟨⟨b', x', a'⟩, e', j'⟩ := s'
  obtain ⟨hb, ht, he, hj⟩ := h
  simp only [List.reverse_nil, List.nil_append, List.cons.injEq] at hb ht he hj
  simp [hb, ht, he, hj]

/-- The state between the two parts of the tokens moved over. -/
theorem split (h : Moved s (ts ++ us) s') : ∃ s₁, Moved s ts s₁ ∧ Moved s₁ us s' := by
  obtain ⟨hb, ht, he, hj⟩ := h
  obtain ⟨x, xs, hx⟩ : ∃ x xs, us ++ s'.here :: s'.ahead = x :: xs := List.exists_cons_of_ne_nil (by simp)
  refine ⟨⟨⟨ts.reverse ++ s.behind, x, xs⟩, s.errors, s.journal⟩, ⟨rfl, ?_, rfl, rfl⟩, ?_, hx.symm, he, hj⟩
  · rw [ht, List.append_assoc, hx]
  · rw [hb, List.reverse_append, List.append_assoc]

/-- The cursor was at the first token. -/
theorem here (h : Moved s (t :: ts) s') : s.here = t := (List.cons.inj h.tokens).1

/-- Moving over the first token is what `next` does. -/
theorem next (h : Moved s (t :: ts) s') (hk : t.kind ≠ .endOfInput) : Moved s.next ts s' := by
  obtain ⟨hb, ht, he, hj⟩ := h
  obtain ⟨rfl, hahead⟩ := List.cons.inj ht
  obtain ⟨x, xs, hx⟩ : ∃ x xs, ts ++ s'.here :: s'.ahead = x :: xs := List.exists_cons_of_ne_nil (by simp)
  have hnext : s.toCursor.advance = ⟨s.here :: s.behind, x, xs⟩ := by
    have hend : s.atEnd = false := decide_eq_false hk
    unfold Cursor.advance
    rw [hend, hahead, List.append_eq, hx]
    rfl
  refine ⟨?_, ?_, he, hj⟩
  · rw [hb, ParserState.next, hnext, List.reverse_cons, List.append_assoc]
    rfl
  · rw [ParserState.next, hnext, hx]

/-- As many tokens fewer are ahead as were moved over. -/
theorem length_ahead (h : Moved s ts s') : s.ahead.length = ts.length + s'.ahead.length := by
  have := congrArg List.length h.tokens
  simp only [List.length_cons, List.length_append] at this
  omega

/-- The tokens at the cursor are the ones moved over. -/
theorem tokenAt (h : Moved s ts s') {n : Nat} (hn : n < ts.length) : s.tokenAt n = ts[n]? := by
  have hat : s.tokenAt n = (s.here :: s.ahead)[n]? := by
    cases n <;> rfl
  rw [hat, h.tokens, List.getElem?_append_left hn]

end Moved

/-- Two tokens in a row stand together if they are parts of a right shift. -/
def Token.Joins (a b : Token) : Prop :=
  a.kind = .mark .gt → b.kind = .mark .gt ∨ b.kind = .mark .ge → a.span.stop = b.span.start

instance (a b : Token) : Decidable (a.Joins b) := by
  unfold Token.Joins
  infer_instance

/-- The tokens are of the given kinds, on one line, with the parts of right shifts joined. -/
structure LaidOut (ts : List Token) (ks : List TokenKind) : Prop where
  kinds : ts.map Token.kind = ks
  line : ∀ t ∈ ts.tail, t.afterBreak = false
  joined : ts.IsChain Token.Joins

/-- Tokens of two lists of kinds are those of the first and those of the second, the latter on the same line. -/
theorem LaidOut.split {ts : List Token} (ks : List TokenKind) {ls : List TokenKind} (h : LaidOut ts (ks ++ ls)) :
    ∃ us vs, ts = us ++ vs ∧ LaidOut us ks ∧ LaidOut vs ls ∧ (ks ≠ [] → ∀ t ∈ vs, t.afterBreak = false) := by
  obtain ⟨hkinds, hline, hjoined⟩ := h
  obtain ⟨us, vs, rfl, hus, hvs⟩ := List.map_eq_append_iff.mp hkinds
  have hright : ∀ t ∈ vs.tail, t.afterBreak = false := by
    intro t ht
    refine hline t ?_
    cases us with
    | nil => exact ht
    | cons u us => exact List.mem_append_right _ (List.mem_of_mem_tail ht)
  refine ⟨us, vs, rfl, ⟨hus, ?_, hjoined.left_of_append⟩, ⟨hvs, hright, hjoined.right_of_append⟩, ?_⟩
  · intro t ht
    refine hline t ?_
    cases us with
    | nil => cases ht
    | cons u us => exact List.mem_append_left _ ht
  · intro hks t ht
    cases us with
    | nil => exact absurd hus.symm hks
    | cons u us => exact hline t (List.mem_append_right _ ht)

/-- The tokens from `s` to `s'` spell the given kinds. -/
def Spelled (s : ParserState) (ks : List TokenKind) (s' : ParserState) : Prop :=
  ∃ ts, Moved s ts s' ∧ LaidOut ts ks

namespace Spelled

variable {s s' : ParserState} {k : TokenKind} {ks ls : List TokenKind}

/-- Without kinds nothing has moved. -/
theorem eq_of_nil (h : Spelled s [] s') : s' = s := by
  obtain ⟨ts, hmoved, hlaid⟩ := h
  obtain rfl := List.map_eq_nil_iff.mp hlaid.kinds
  exact hmoved.eq_of_nil

/-- What spells two lists of kinds spells first the one and then the other. -/
theorem split (ks : List TokenKind) (h : Spelled s (ks ++ ls) s') : ∃ s₁, Spelled s ks s₁ ∧ Spelled s₁ ls s' := by
  obtain ⟨ts, hmoved, hlaid⟩ := h
  obtain ⟨us, vs, rfl, hus, hvs, -⟩ := hlaid.split ks
  obtain ⟨s₁, hs₁, hs'⟩ := hmoved.split
  exact ⟨s₁, ⟨us, hs₁, hus⟩, vs, hs', hvs⟩

/-- What stands after something on the same line is not after a line break. -/
theorem split_line (ks : List TokenKind) (h : Spelled s (ks ++ k :: ls) s') (hks : ks ≠ []) :
    ∃ s₁, Spelled s ks s₁ ∧ Spelled s₁ (k :: ls) s' ∧ s₁.here.afterBreak = false := by
  obtain ⟨ts, hmoved, hlaid⟩ := h
  obtain ⟨us, vs, rfl, hus, hvs, hline⟩ := hlaid.split ks
  obtain ⟨s₁, hs₁, hs'⟩ := hmoved.split
  refine ⟨s₁, ⟨us, hs₁, hus⟩, ⟨vs, hs', hvs⟩, ?_⟩
  obtain ⟨v, vs, rfl, -, -⟩ := List.map_eq_cons_iff.mp hvs.kinds
  rw [hs'.here]
  exact hline hks v List.mem_cons_self

/-- The token at the cursor is of the first kind. -/
theorem here (h : Spelled s (k :: ks) s') : s.here.kind = k := by
  obtain ⟨ts, hmoved, hlaid⟩ := h
  obtain ⟨t, ts, rfl, hk, -⟩ := List.map_eq_cons_iff.mp hlaid.kinds
  rw [hmoved.here, hk]

theorem here_of_head? (h : Spelled s ks s') (hk : ks.head? = some k) : s.here.kind = k := by
  cases ks with
  | nil => cases hk
  | cons l ls =>
    cases hk
    exact h.here

/-- After the first token the others are spelled. -/
theorem next (h : Spelled s (k :: ks) s') (hk : k ≠ .endOfInput) : Spelled s.next ks s' := by
  obtain ⟨ts, hmoved, hlaid⟩ := h
  obtain ⟨us, vs, rfl, hus, hvs, -⟩ := LaidOut.split [k] hlaid
  obtain ⟨t, us, rfl, rfl, hnil⟩ := List.map_eq_cons_iff.mp hus.kinds
  obtain rfl := List.map_eq_nil_iff.mp hnil
  exact ⟨vs, hmoved.next hk, hvs⟩

/-- The single token of a text of one kind. -/
theorem eq_next (h : Spelled s [k] s') (hk : k ≠ .endOfInput) : s' = s.next := (h.next hk).eq_of_nil

/-- As many tokens fewer are ahead as are spelled. -/
theorem length_ahead (h : Spelled s ks s') : s.ahead.length = ks.length + s'.ahead.length := by
  obtain ⟨ts, hmoved, hlaid⟩ := h
  rw [hmoved.length_ahead, ← hlaid.kinds, List.length_map]

/-- One token less is ahead after the first one. -/
theorem next_lt (h : Spelled s (k :: ks) s') (hk : k ≠ .endOfInput) : s.next.ahead.length < s.ahead.length := by
  have := h.length_ahead
  have := (h.next hk).length_ahead
  simp only [List.length_cons] at *
  omega

/-- The kind of a token ahead is that of the one spelled there. -/
theorem kindAt (h : Spelled s ks s') {n : Nat} (hk : ks[n]? = some k) : s.kindAt n = k := by
  obtain ⟨ts, hmoved, hlaid⟩ := h
  rw [← hlaid.kinds, List.getElem?_map, Option.map_eq_some_iff] at hk
  obtain ⟨t, ht, rfl⟩ := hk
  have hn : n < ts.length := (List.getElem?_eq_some_iff.mp ht).1
  rw [Cursor.kindAt, hmoved.tokenAt hn, ht]
  rfl

/-- The parts of a right shift stand together. -/
theorem joined (h : Spelled s ks s') {n : Nat} (hgt : ks[n]? = some (.mark .gt)) (hk : ks[n + 1]? = some k)
    (hshift : k = .mark .gt ∨ k = .mark .ge) : s.joined n = true := by
  obtain ⟨ts, hmoved, hlaid⟩ := h
  rw [← hlaid.kinds, List.getElem?_map, Option.map_eq_some_iff] at hgt hk
  obtain ⟨a, ha, hagt⟩ := hgt
  obtain ⟨b, hb, rfl⟩ := hk
  obtain ⟨hn, rfl⟩ := List.getElem?_eq_some_iff.mp ha
  obtain ⟨hn', rfl⟩ := List.getElem?_eq_some_iff.mp hb
  have hab := List.isChain_iff_getElem.mp hlaid.joined n (by omega) hagt hshift
  rw [Cursor.joined, hmoved.tokenAt hn, hmoved.tokenAt hn', ha, hb]
  exact decide_eq_true hab

end Spelled

/-! ## Operators -/

/-- A token that starts an expression is none that does not. -/
theorem TokenKind.ne_of_opensExpr {k : TokenKind} (h : k.opensExpr = true) {l : TokenKind} (hl : l.opensExpr = false) :
    k ≠ l := by
  rintro rfl
  rw [h] at hl
  cases hl

/-- A tier takes an operator of one token for what it is, if it is an operator of the tier. -/
theorem Tier.operator?_of_kinds {op : BinaryOp} {k : TokenKind} (h : op.kinds = [k]) (tier : Tier) :
    tier.operator? k = if op.tier? = some tier then some op else none := by
  cases op <;> cases h <;> cases tier <;> rfl

/-- An operator of one token is an assignment just if its token says so. -/
theorem TokenKind.assignOp?_of_kinds {op : BinaryOp} {k : TokenKind} (h : op.kinds = [k]) :
    k.assignOp? = if op.isAssignment then some op else none := by
  cases op <;> cases h <;> rfl

namespace Cursor

variable {c : Cursor} {op : BinaryOp}

/-- An operator whose tokens are put together is taken for what it is in its own tier, and for nothing in the others. -/
theorem binaryOp?_of_rightShift?
    (hshift : c.rightShift? = if op.kinds.length = 1 then none else some (op, op.kinds.length))
    (hhere : ∀ l, op.kinds = [l] → c.here.kind = l) (tier : Tier) :
    c.binaryOp? tier = if op.tier? = some tier then some (op, op.kinds.length) else none := by
  unfold Cursor.binaryOp?
  rw [hshift]
  by_cases hlen : op.kinds.length = 1
  · obtain ⟨l, hl⟩ := List.length_eq_one_iff.mp hlen
    rw [if_pos hlen, hhere l hl]
    dsimp only
    rw [Tier.operator?_of_kinds hl, hlen]
    split <;> rfl
  · rw [if_neg hlen]
    cases op <;> first | exact absurd rfl hlen | (cases tier <;> rfl)

/-- An assignment whose tokens are put together is taken for what it is, and another operator for no assignment. -/
theorem assignOp?_of_rightShift?
    (hshift : c.rightShift? = if op.kinds.length = 1 then none else some (op, op.kinds.length))
    (hhere : ∀ l, op.kinds = [l] → c.here.kind = l) :
    c.assignOp? = if op.isAssignment then some (op, op.kinds.length) else none := by
  unfold Cursor.assignOp?
  rw [hshift]
  by_cases hlen : op.kinds.length = 1
  · obtain ⟨l, hl⟩ := List.length_eq_one_iff.mp hlen
    rw [if_pos hlen, hhere l hl]
    dsimp only
    rw [TokenKind.assignOp?_of_kinds hl, hlen]
    split <;> rfl
  · rw [if_neg hlen]

end Cursor

namespace Spelled

variable {s s' : ParserState} {op : BinaryOp} {k : TokenKind} {ks : List TokenKind}

/-- An operator of more than one token is a right shift; one of a single token is none. -/
theorem rightShift? (h : Spelled s (op.kinds ++ k :: ks) s') (hk : k.opensExpr = true) :
    s.rightShift? = if op.kinds.length = 1 then none else some (op, op.kinds.length) := by
  have hgt := TokenKind.ne_of_opensExpr hk (l := .mark .gt) rfl
  have hge := TokenKind.ne_of_opensExpr hk (l := .mark .ge) rfl
  unfold Cursor.rightShift?
  cases op
  case shr =>
    have h₂ : s.kindAt 2 = k := h.kindAt rfl
    rw [if_pos ⟨h.here, h.joined (n := 0) rfl rfl (.inl rfl)⟩, h.kindAt (n := 1) rfl]
    dsimp only
    rw [h₂]
    split
    · split <;> first | contradiction | rfl
    · rfl
  case shrAssign =>
    rw [if_pos ⟨h.here, h.joined (n := 0) rfl rfl (.inr rfl)⟩, h.kindAt (n := 1) rfl]
    rfl
  case ushr =>
    rw [if_pos ⟨h.here, h.joined (n := 0) rfl rfl (.inl rfl)⟩, h.kindAt (n := 1) rfl]
    dsimp only
    rw [if_pos (h.joined (n := 1) rfl rfl (.inl rfl)), h.kindAt (n := 2) rfl]
    rfl
  case ushrAssign =>
    rw [if_pos ⟨h.here, h.joined (n := 0) rfl rfl (.inl rfl)⟩, h.kindAt (n := 1) rfl]
    dsimp only
    rw [if_pos (h.joined (n := 1) rfl rfl (.inr rfl)), h.kindAt (n := 2) rfl]
    rfl
  all_goals
    have h₁ : s.kindAt 1 = k := h.kindAt rfl
    rw [h₁]
    split
    · split <;> first | contradiction | rfl
    · rfl

/-- An operator is taken for what it is in its own tier, and for nothing in the others. -/
theorem binaryOp? (h : Spelled s (op.kinds ++ k :: ks) s') (hk : k.opensExpr = true) (tier : Tier) :
    s.binaryOp? tier = if op.tier? = some tier then some (op, op.kinds.length) else none := by
  refine Cursor.binaryOp?_of_rightShift? (h.rightShift? hk) (fun l hl => ?_) tier
  rw [hl] at h
  exact h.here

/-- An assignment is taken for what it is, and another operator for no assignment. -/
theorem assignOp? (h : Spelled s (op.kinds ++ k :: ks) s') (hk : k.opensExpr = true) :
    s.assignOp? = if op.isAssignment then some (op, op.kinds.length) else none := by
  refine Cursor.assignOp?_of_rightShift? (h.rightShift? hk) fun l hl => ?_
  rw [hl] at h
  exact h.here

/-- Moving over the tokens of a text. -/
theorem advanceBy {ks : List TokenKind} : ∀ {s : ParserState}, Spelled s ks s' → .endOfInput ∉ ks →
    Parser.advanceBy ks.length s = .ok () s' := by
  induction ks with
  | nil =>
    intro s h _
    obtain rfl := h.eq_of_nil
    rfl
  | cons k ks ih =>
    intro s h hend
    rw [List.length_cons, Parser.advanceBy, Parser.run_advance]
    exact ih (h.next fun hk => hend (by simp [hk])) fun hk => hend (List.mem_cons_of_mem _ hk)

end Spelled

/-! ## Where an expression ends -/

/-- Nothing at the cursor extends a primary expression. -/
structure StopsSuffix (s : ParserState) : Prop where
  suffix : s.here.kind ∉ [.mark .questionDot, .mark .lparen, .mark .dot, .mark .lbracket]
  bang : s.here.kind = .mark .bang → s.here.afterBreak = true

/-- Nothing at the cursor extends an operand of a prefix operator. -/
structure StopsUnary (s : ParserState) : Prop extends StopsSuffix s where
  update : s.here.kind.updateOp? = none ∨ s.here.afterBreak = true

/-- Nothing at the cursor extends an operand of the tiers looser than the `n`th; 11 stands for powers. -/
structure StopsFrom (n : Nat) (s : ParserState) : Prop extends StopsUnary s where
  power : s.here.kind ≠ .mark .starStar
  tiers : ∀ tier : Tier, n ≤ tier.rank → s.binaryOp? tier = none
  assertion : n ≤ Tier.relational.rank →
    s.here.afterBreak = true ∨ s.here.kind ≠ .keyword .as ∧ s.here.kind ≠ .keyword .satisfies

/-- Nothing at the cursor extends an expression. -/
structure StopsExpr (s : ParserState) : Prop extends StopsFrom 0 s where
  question : s.here.kind ≠ .mark .question
  assign : s.assignOp? = none

/-- Whether a token can continue an expression that it follows. Some do so on the same line only. -/
def Token.continuesExpr (t : Token) : Bool :=
  match t.kind with
  | .mark .questionDot | .mark .lparen | .mark .dot | .mark .lbracket | .mark .starStar | .mark .question => true
  | .mark .bang | .mark .plusPlus | .mark .minusMinus | .keyword .as | .keyword .satisfies => !t.afterBreak
  | kind => Tier.all.any (fun tier => (tier.operator? kind).isSome) || kind.assignOp?.isSome

/-- What stops looser operands stops those of fewer tiers. -/
theorem StopsFrom.mono {m n : Nat} {s : ParserState} (h : StopsFrom m s) (hmn : m ≤ n) : StopsFrom n s :=
  ⟨h.toStopsUnary, h.power, fun tier ht => h.tiers tier (Nat.le_trans hmn ht),
    fun hn => h.assertion (Nat.le_trans hmn hn)⟩

/-- A right shift starts with a closing angle. -/
theorem Cursor.rightShift?_of_ne {c : Cursor} (h : c.here.kind ≠ .mark .gt) : c.rightShift? = none := by
  rw [Cursor.rightShift?, if_neg fun hgt => h hgt.1]

/-- Every tier is one of them. -/
theorem Tier.mem_all (tier : Tier) : tier ∈ Tier.all := by
  cases tier <;> decide

/-- A token that continues no expression is no operator. -/
theorem Token.operator?_of_continuesExpr {t : Token} (h : t.continuesExpr = false) (tier : Tier) :
    tier.operator? t.kind = none := by
  unfold continuesExpr at h
  split at h
  all_goals try cases h
  all_goals try (rename_i hk; rw [hk]; cases tier <;> rfl)
  rw [Bool.or_eq_false_iff] at h
  exact Option.not_isSome_iff_eq_none.mp (by simpa using List.any_eq_false.mp h.1 tier tier.mem_all)

theorem Token.assignOp?_of_continuesExpr {t : Token} (h : t.continuesExpr = false) : t.kind.assignOp? = none := by
  unfold continuesExpr at h
  split at h
  all_goals try cases h
  all_goals try (rename_i hk; rw [hk]; rfl)
  rw [Bool.or_eq_false_iff] at h
  exact Option.not_isSome_iff_eq_none.mp (by simpa using h.2)

/-- An expression ends before a token that cannot continue one. -/
theorem stopsExpr_of_continuesExpr {s : ParserState} (h : s.here.continuesExpr = false) : StopsExpr s := by
  have hoperator := Token.operator?_of_continuesExpr h
  have hassign := Token.assignOp?_of_continuesExpr h
  have hshift : s.rightShift? = none := Cursor.rightShift?_of_ne fun hk => by
    have := hoperator .relational
    rw [hk] at this
    cases this
  have hcontinues : ∀ k, s.here.kind = k → Token.continuesExpr ⟨k, s.here.span, s.here.afterBreak⟩ = false :=
    fun k hk => hk ▸ h
  have hbreak : ∀ k, s.here.kind = k → Token.continuesExpr ⟨k, s.here.span, false⟩ = true →
      s.here.afterBreak = true := by
    intro k hk hsame
    by_contra hfalse
    have := hcontinues k hk
    rw [Bool.eq_false_iff.mpr hfalse, hsame] at this
    cases this
  refine ⟨⟨⟨⟨?_, fun hk => hbreak _ hk rfl⟩, ?_⟩, fun hk => ?_, fun tier _ => ?_, fun _ => ?_⟩, fun hk => ?_, ?_⟩
  · intro hmem
    simp only [List.mem_cons, List.not_mem_nil, or_false] at hmem
    rcases hmem with hk | hk | hk | hk <;> cases hcontinues _ hk
  · cases hupdate : s.here.kind.updateOp? with
    | none => exact .inl rfl
    | some op =>
      refine .inr ?_
      unfold TokenKind.updateOp? at hupdate
      split at hupdate <;> first | exact hbreak _ (by assumption) rfl | cases hupdate
  · cases hcontinues _ hk
  · rw [Cursor.binaryOp?, hshift, hoperator]
    rfl
  · by_cases has : s.here.kind = .keyword .as
    · exact .inl (hbreak _ has rfl)
    by_cases hsat : s.here.kind = .keyword .satisfies
    · exact .inl (hbreak _ hsat rfl)
    exact .inr ⟨has, hsat⟩
  · cases hcontinues _ hk
  · rw [Cursor.assignOp?, hshift, hassign]
    rfl

/-- A closing bracket, a comma, a colon or a semicolon ends an expression. -/
theorem stopsExpr_of_mark {s : ParserState} {mark : Mark} (h : s.here.kind = .mark mark)
    (hmark : mark ∈ [.rparen, .rbracket, .rbrace, .comma, .colon, .semicolon]) : StopsExpr s := by
  apply stopsExpr_of_continuesExpr
  simp only [List.mem_cons, List.not_mem_nil, or_false] at hmark
  unfold Token.continuesExpr
  rw [h]
  rcases hmark with rfl | rfl | rfl | rfl | rfl | rfl <;> rfl

/-- An assignment is of no tier. -/
theorem BinaryOp.tier?_of_isAssignment {op : BinaryOp} (h : op.isAssignment = true) : op.tier? = none := by
  cases op <;> first | rfl | cases h

/-- An operator starts with a token that extends nothing tighter. -/
theorem BinaryOp.kinds_eq_cons (op : BinaryOp) : ∃ l ls, op.kinds = l :: ls ∧
    l ∉ [.mark .questionDot, .mark .lparen, .mark .dot, .mark .lbracket, .mark .bang, .mark .question, .keyword .as,
      .keyword .satisfies] ∧ l.updateOp? = none ∧ (op ≠ .exp → l ≠ .mark .starStar) := by
  cases op <;> exact ⟨_, _, rfl, by decide, rfl, by decide⟩

namespace Spelled

variable {s s' : ParserState} {op : BinaryOp} {k : TokenKind} {ks : List TokenKind}

/-- An operand of a prefix operator ends before any operator. -/
theorem stopsUnary_of_op (h : Spelled s (op.kinds ++ ks) s') : StopsUnary s := by
  obtain ⟨l, ls, hl, hnot, hupdate, -⟩ := op.kinds_eq_cons
  rw [hl] at h
  refine ⟨⟨?_, ?_⟩, .inl ?_⟩
  · rw [h.here]
    exact fun hmem => hnot (by simp only [List.mem_cons] at hmem ⊢; tauto)
  · rw [h.here]
    exact fun hbang => absurd hbang (by rintro rfl; simp at hnot)
  · rw [h.here, hupdate]

/-- Before an operator the cursor is at no assertion and at no conditional, and at a power only if it is one. -/
theorem here_of_op (h : Spelled s (op.kinds ++ ks) s') :
    s.here.kind ≠ .keyword .as ∧ s.here.kind ≠ .keyword .satisfies ∧ s.here.kind ≠ .mark .question ∧
      (op ≠ .exp → s.here.kind ≠ .mark .starStar) := by
  obtain ⟨l, ls, hl, hnot, -, hexp⟩ := op.kinds_eq_cons
  rw [hl] at h
  rw [h.here]
  simp only [List.mem_cons, List.not_mem_nil, not_or] at hnot
  exact ⟨hnot.2.2.2.2.2.2.1, hnot.2.2.2.2.2.2.2.1, hnot.2.2.2.2.2.1, hexp⟩

/-- An operand of the next tighter tier ends before an operator. -/
theorem stopsFrom_of_tier (h : Spelled s (op.kinds ++ k :: ks) s') (hk : k.opensExpr = true) {tier : Tier}
    (htier : op.tier? = some tier) : StopsFrom (tier.rank + 1) s := by
  obtain ⟨has, hsat, -, hexp⟩ := h.here_of_op
  refine ⟨h.stopsUnary_of_op, hexp (by rintro rfl; cases htier), fun tier' hlt => ?_, fun _ => .inr ⟨has, hsat⟩⟩
  rw [h.binaryOp? hk, htier, if_neg]
  rintro heq
  cases heq
  omega

/-- An operand of a conditional or an assignment ends before an assignment. -/
theorem stopsFrom_of_assignment (h : Spelled s (op.kinds ++ k :: ks) s') (hk : k.opensExpr = true)
    (hop : op.isAssignment = true) : StopsFrom 0 s := by
  obtain ⟨has, hsat, -, hexp⟩ := h.here_of_op
  refine ⟨h.stopsUnary_of_op, hexp (by rintro rfl; cases hop), fun tier _ => ?_, fun _ => .inr ⟨has, hsat⟩⟩
  rw [h.binaryOp? hk, BinaryOp.tier?_of_isAssignment hop, if_neg nofun]

end Spelled

/-- The test of a conditional ends before the question mark. -/
theorem stopsFrom_of_question {s : ParserState} (h : s.here.kind = .mark .question) : StopsFrom 0 s := by
  refine ⟨⟨⟨by simp [h], by simp [h]⟩, .inl (by rw [h]; rfl)⟩, by simp [h], fun tier _ => ?_, fun _ => .inr (by simp [h])⟩
  rw [Cursor.binaryOp?, Cursor.rightShift?_of_ne (by simp [h]), h]
  cases tier <;> rfl

end ContractCompiler
