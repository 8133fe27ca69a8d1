import ContractCompiler.Proofs.Printing.Spelled

/-!
# Legible expressions

An expression is legible when every parser that its rank allows reads it back from its tokens, up to spans. A parser
that goes on after the expression is in the middle of a chain, so for these the statement says where the chain has come
to rather than what it ends with. It is enough to know this of the tightest parser: the looser ones pass the expression
on where nothing extends it. Lists, arguments and indices of legible expressions are read back item by item.
-/

namespace ContractCompiler

open ContractCompiler.Parser

/-! ## Values and chains -/

/-- `p` goes from `s` to `s'` and gives `e`, up to spans. -/
def Yields (p : Parser Expr) (e : Expr) (s s' : ParserState) : Prop := ∃ e', p s = .ok e' s' ∧ e'.erase = e.erase

/-- `p` goes from `s` to `s'`, where it has `e`, up to spans, and tries to extend it by `step`. -/
def Follows (p : Parser Expr) (step : Expr → Parser (Option Expr)) (e : Expr) (s s' : ParserState) : Prop :=
  ∃ e' m, s'.ahead.length < m ∧ p s = chainUpTo step m e' s' ∧ e'.erase = e.erase

/-- Where nothing is added the chain ends. -/
theorem Parser.chainUpTo_of_none {α : Type} {step : α → Parser (Option α)} {a : α} {s : ParserState}
    (h : step a s = .ok none s) {m : Nat} (hm : 0 < m) : chainUpTo step m a s = .ok a s := by
  cases m with
  | zero => cases hm
  | succ m =>
    rw [chainUpTo, bind_of_ok h]
    rfl

/-- What is added is extended further. -/
theorem Parser.chainUpTo_of_some {α : Type} {step : α → Parser (Option α)} {a a' : α} {s s' : ParserState}
    (h : step a s = .ok (some a') s') (m : Nat) : chainUpTo step (m + 1) a s = chainUpTo step m a' s' := by
  rw [chainUpTo, bind_of_ok h]

namespace Follows

variable {p : Parser Expr} {step : Expr → Parser (Option Expr)} {e f : Expr} {s s₁ s' : ParserState}

/-- A chain starts with its first operand. -/
theorem of_yields (h : Yields p e s s') : Follows (p >>= chain step) step e s s' := by
  obtain ⟨e', hp, he⟩ := h
  refine ⟨e', s'.ahead.length + 1, Nat.lt_succ_self _, ?_, he⟩
  rw [bind_of_ok hp]
  rfl

/-- A chain that cannot be extended has its value. -/
theorem yields (h : Follows p step e s s') (hstep : ∀ e', step e' s' = .ok none s') : Yields p e s s' := by
  obtain ⟨e', m, hm, hp, he⟩ := h
  exact ⟨e', by rw [hp, chainUpTo_of_none (hstep e') (Nat.zero_lt_of_lt hm)], he⟩

/-- A chain goes on after one more step. -/
theorem extend (h : Follows p step e s s₁) (hlt : s'.ahead.length < s₁.ahead.length)
    (hstep : ∀ e', e'.erase = e.erase → ∃ f', step e' s₁ = .ok (some f') s' ∧ f'.erase = f.erase) :
    Follows p step f s s' := by
  obtain ⟨e', m, hm, hp, he⟩ := h
  obtain ⟨f', hf', hf⟩ := hstep e' he
  obtain ⟨m, rfl⟩ : ∃ k, m = k + 1 := ⟨m - 1, by omega⟩
  exact ⟨f', m, by omega, by rw [hp, chainUpTo_of_some hf'], hf⟩

end Follows

/-! ## From tighter parsers to looser ones -/

/-- The tiers from that of a rank on start with it. -/
theorem Tier.all_drop_rank (tier : Tier) : Tier.all.drop tier.rank = tier :: Tier.all.drop (tier.rank + 1) := by
  cases tier <;> rfl

/-- There is a tier of every rank up to ten. -/
theorem Tier.exists_rank {n : Nat} (hn : n ≤ 10) : ∃ tier : Tier, tier.rank = n := by
  have h : ∀ m : Fin 11, ∃ tier ∈ Tier.all, tier.rank = m.val := by decide
  obtain ⟨tier, -, htier⟩ := h ⟨n, by omega⟩
  exact ⟨tier, htier⟩

/-- The expression is read by the parser of the tiers from the `k`th on, where nothing extends it there. -/
def YieldsFrom (k : Nat) (e : Expr) : Prop :=
  ∀ ⦃n : Nat⦄ ⦃s s' : ParserState⦄, Spelled s e.print s' → s.ahead.length ≤ n → StopsFrom k s' →
    Yields (binaryExpr (exprWithin n) (Tier.all.drop k)) e s s'

/-- The expression is met by the parser of a tier as a left operand. -/
def FollowsIn (tier : Tier) (e : Expr) : Prop :=
  ∀ ⦃n : Nat⦄ ⦃s s' : ParserState⦄, Spelled s e.print s' → s.ahead.length ≤ n → StopsFrom (tier.rank + 1) s' →
    Follows (binaryExpr (exprWithin n) (Tier.all.drop tier.rank))
      (tierStep tier (binaryExpr (exprWithin n) (Tier.all.drop (tier.rank + 1)))) e s s'

/-- The expression is read by the parser of all expressions. -/
def YieldsExpr (e : Expr) : Prop :=
  ∀ ⦃n : Nat⦄ ⦃s s' : ParserState⦄, Spelled s e.print s' → s.ahead.length ≤ n → StopsExpr s' →
    Yields (assignmentExpr (exprWithin n)) e s s'

/-- Where no operator of the tier stands no operation is read. -/
theorem operation?_of_none {tier : Tier} {s : ParserState} (h : s.binaryOp? tier = none) (operand : Parser Expr)
    (left : Expr) : operation? tier operand left s = .ok none s := by
  rw [operation?, run_get, h]
  rfl

/-- Where no assertion stands, or a line break before it, none is read. -/
theorem assertion?_of_not {s : ParserState} {left : Expr} (h : s.here.afterBreak = true ∨
    s.here.kind ≠ .keyword .as ∧ s.here.kind ≠ .keyword .satisfies) : assertion? left s = .ok none s := by
  rw [assertion?, run_here]
  rcases h with hbreak | ⟨has, hsat⟩
  · rw [if_pos hbreak]
    rfl
  · rw [if_neg has, if_neg hsat]
    split <;> rfl

/-- Where no type assertion follows, a tier is extended by its operators only. -/
theorem tierStep_eq_operation? {tier : Tier} {s : ParserState} {operand : Parser Expr} {left : Expr}
    (h : tier = .relational → s.here.afterBreak = true ∨
      s.here.kind ≠ .keyword .as ∧ s.here.kind ≠ .keyword .satisfies) :
    tierStep tier operand left s = operation? tier operand left s := by
  unfold tierStep
  split
  · rename_i htier
    rw [bind_of_ok (assertion?_of_not (h htier))]
  · rfl

/-- A tier ends where no operator of it and no type assertion follows. -/
theorem tierStep_of_stops {tier : Tier} {s : ParserState} (h : StopsFrom tier.rank s) (operand : Parser Expr)
    (left : Expr) : tierStep tier operand left s = .ok none s := by
  rw [tierStep_eq_operation? fun htier => h.assertion (by rw [htier])]
  exact operation?_of_none (h.tiers tier (Nat.le_refl _)) operand left

/-- What is read by the tighter tiers is met as a left operand. -/
theorem FollowsIn.of_yieldsFrom {tier : Tier} {e : Expr} (h : YieldsFrom (tier.rank + 1) e) : FollowsIn tier e := by
  intro n s s' hs hn hstops
  rw [Tier.all_drop_rank, binaryExpr]
  exact .of_yields (h hs hn hstops)

/-- What is met as a left operand is read where nothing extends it. -/
theorem FollowsIn.yieldsFrom {tier : Tier} {e : Expr} (h : FollowsIn tier e) : YieldsFrom tier.rank e := by
  intro n s s' hs hn hstops
  exact (h hs hn (hstops.mono (Nat.le_succ _))).yields fun e' => tierStep_of_stops hstops _ e'

/-- What a tighter parser reads is read by a looser one. -/
theorem YieldsFrom.looser {e : Expr} {j k : Nat} (h : YieldsFrom k e) (hjk : j ≤ k) (hk : k ≤ 11) : YieldsFrom j e := by
  induction hjk using Nat.decreasingInduction with
  | self => exact h
  | of_succ j hj ih =>
    obtain ⟨tier, rfl⟩ := Tier.exists_rank (n := j) (by omega)
    exact (FollowsIn.of_yieldsFrom ih).yieldsFrom

/-- What is read by all tiers is read by the parser of all expressions. -/
theorem YieldsExpr.of_yieldsFrom {e : Expr} (h : YieldsFrom 0 e) : YieldsExpr e := by
  intro n s s' hs hn hstops
  obtain ⟨e', he', heq⟩ := h hs hn hstops.toStopsFrom
  refine ⟨e', ?_, heq⟩
  have hcond : conditionalExpr (exprWithin n) s = .ok e' s' := by
    rw [conditionalExpr, bind_of_ok (show binaryExpr (exprWithin n) Tier.all s = .ok e' s' from he'), run_accept,
      if_neg hstops.question]
    rfl
  rw [assignmentExpr, bind_of_ok hcond, run_get, hstops.assign]
  rfl

/-- The expression is read as an operand of a prefix operator. -/
def YieldsUnary (e : Expr) : Prop :=
  ∀ ⦃n : Nat⦄ ⦃s s' : ParserState⦄, Spelled s e.print s' → s.ahead.length ≤ n → StopsUnary s' →
    Yields (unaryExpr (exprWithin n)) e s s'

/-- The expression is met as something to which a member, an index or a call may be added. -/
def FollowsSuffixed (e : Expr) : Prop :=
  ∀ ⦃n : Nat⦄ ⦃s s' : ParserState⦄, Spelled s e.print s' → s.ahead.length ≤ n →
    Follows (postfixExpr (exprWithin n)) (suffix? (exprWithin n)) e s s'

/-- What may follow the primary expression after `new`: members only. -/
def Parser.calleeStep (target : Expr) : Parser (Option Expr) := do
  if ← check (.mark .dot) then return some (← memberSuffix target) else return none

/-- After `new` a callee is read as a chain of members. -/
theorem newExpr_eq (inner : ExprForm → Parser Expr) : newExpr inner = (do
    let start := (← here).span.start
    advance
    let callee ← chain calleeStep (← inner .primary)
    skipAngles
    let args ← if ← accept .lparen then arguments inner else pure []
    return .new (← spanFrom start) callee args) := rfl

/-- The expression is met as what `new` makes an instance of. -/
def FollowsCallee (e : Expr) : Prop :=
  ∀ ⦃n : Nat⦄ ⦃s s' : ParserState⦄, Spelled s e.print s' → s.ahead.length < n →
    Follows (exprWithin n .primary >>= chain calleeStep) calleeStep e s s'

/-- Where nothing extends a primary expression nothing is added. -/
theorem suffix?_of_stops {s : ParserState} (h : StopsSuffix s) (inner : ExprForm → Parser Expr) (target : Expr) :
    suffix? inner target s = .ok none s := by
  have hnot := h.suffix
  have hbang := h.bang
  rw [suffix?, run_here]
  generalize s.here.kind = k at hnot hbang
  simp only [List.mem_cons, List.not_mem_nil, or_false, not_or] at hnot
  split
  · exact absurd rfl hnot.1
  · rw [if_pos (hbang rfl)]
    rfl
  · exact absurd rfl hnot.2.1
  · exact absurd rfl hnot.2.2.1
  · exact absurd rfl hnot.2.2.2
  · rfl

/-- What stands together is an operand of a prefix operator. -/
theorem FollowsSuffixed.yieldsUnary {e : Expr} (h : FollowsSuffixed e)
    (hopen : Expr.Opening e.print (.suffixed ≤ Rank.suffixed)) : YieldsUnary e := by
  intro n s s' hs hn hstops
  obtain ⟨e', he', heq⟩ := (h hs hn).yields fun e' => suffix?_of_stops hstops.toStopsSuffix _ e'
  refine ⟨e', ?_, heq⟩
  obtain ⟨k, hk, -, hprimary⟩ := hopen
  have hprimary := hprimary (Nat.le_refl _)
  rw [unaryExpr, run_here, hs.here_of_head? hk, TokenKind.unaryOp?_of_opensPrimary hprimary, TokenKind.updateOp?_of_opensPrimary hprimary]
  dsimp only
  rw [bind_of_ok he', run_here]
  rcases hstops.update with hnone | hbreak
  · rw [hnone]
    rfl
  · cases s'.here.kind.updateOp? with
    | none => rfl
    | some op =>
      dsimp only
      rw [if_pos hbreak]
      rfl

/-- An operand of a prefix operator is a power by itself. -/
theorem YieldsUnary.yieldsFrom {e : Expr} (h : YieldsUnary e) : YieldsFrom 11 e := by
  intro n s s' hs hn hstops
  obtain ⟨e', he', heq⟩ := h hs hn hstops.toStopsUnary
  refine ⟨e', ?_, heq⟩
  show exponentExpr (exprWithin n) s = _
  rw [exponentExpr, bind_of_ok he', run_accept, if_neg hstops.power]
  rfl

/-- A callee is as tight as anything with a suffix. -/
theorem Expr.rank_of_isCallee {e : Expr} (h : e.isCallee = true) : e.rank = .suffixed := by
  cases e <;> first | rfl | cases h

/-- The expression is read back by every parser that its rank allows. -/
structure Legible (e : Expr) : Prop where
  opening : Expr.Opening e.print (.suffixed ≤ e.rank)
  suffixed : .suffixed ≤ e.rank → FollowsSuffixed e
  callee : e.isCallee = true → FollowsCallee e
  unary : .unary ≤ e.rank → YieldsUnary e
  binary : ∀ k ≤ 11, k < e.rank.toNat → YieldsFrom k e
  tier : ∀ tier : Tier, tier.rank < e.rank.toNat → FollowsIn tier e
  expr : YieldsExpr e

namespace Legible

variable {e : Expr} (hopen : Expr.Opening e.print (.suffixed ≤ e.rank))
include hopen

/-- An assignment or a conditional need only be read as an expression. -/
theorem of_expr (hrank : e.rank = .assignment) (h : YieldsExpr e) : Legible e where
  opening := hopen
  suffixed hle := by rw [hrank] at hle; exact absurd hle (by decide)
  callee hcallee := by rw [Expr.rank_of_isCallee hcallee] at hrank; cases hrank
  unary hle := by rw [hrank] at hle; exact absurd hle (by decide)
  binary k _ hlt := by rw [hrank] at hlt; exact absurd hlt (Nat.not_lt_zero k)
  tier t hlt := by rw [hrank] at hlt; exact absurd hlt (Nat.not_lt_zero _)
  expr := h

/-- A binary operation need only be met by the parser of its own tier. -/
theorem of_tier {tier : Tier} (hrank : e.rank = .tier tier) (h : FollowsIn tier e) : Legible e where
  opening := hopen
  suffixed hle := by rw [hrank] at hle; exact absurd hle (Nat.not_le.mpr (Rank.tier_lt_suffixed tier))
  callee hcallee := by rw [Expr.rank_of_isCallee hcallee] at hrank; cases hrank
  unary hle := by rw [hrank] at hle; exact absurd hle (by cases tier <;> decide)
  binary k _ hlt := by
    rw [hrank, Rank.toNat_tier] at hlt
    exact h.yieldsFrom.looser (Nat.le_of_lt_succ hlt) (Nat.le_succ_of_le tier.rank_le)
  tier t hlt := by
    rw [hrank, Rank.toNat_tier] at hlt
    rcases Nat.lt_or_ge t.rank tier.rank with hlt' | hge
    · exact .of_yieldsFrom (h.yieldsFrom.looser hlt' (Nat.le_succ_of_le tier.rank_le))
    · obtain rfl : t = tier := by
        have : t.rank = tier.rank := by omega
        cases t <;> cases tier <;> first | rfl | cases this
      exact h
  expr := .of_yieldsFrom (h.yieldsFrom.looser (Nat.zero_le _) (Nat.le_succ_of_le tier.rank_le))

/-- What is read by the parser of powers is read by all looser ones. -/
theorem of_yieldsFrom (h : YieldsFrom 11 e) (hsuffixed : .suffixed ≤ e.rank → FollowsSuffixed e)
    (hcallee : e.isCallee = true → FollowsCallee e) (hunary : .unary ≤ e.rank → YieldsUnary e) : Legible e where
  opening := hopen
  suffixed := hsuffixed
  callee := hcallee
  unary := hunary
  binary _ hk _ := h.looser hk (Nat.le_refl _)
  tier t _ := .of_yieldsFrom (h.looser (Nat.succ_le_succ t.rank_le) (Nat.le_refl _))
  expr := .of_yieldsFrom (h.looser (Nat.zero_le _) (Nat.le_refl _))

/-- A power is legible if the parser of powers reads it. -/
theorem of_power (hrank : e.rank = .power) (h : YieldsFrom 11 e) : Legible e :=
  of_yieldsFrom hopen h (fun hle => absurd (hrank ▸ hle) (by decide))
    (fun hcallee => absurd (hrank.symm.trans (Expr.rank_of_isCallee hcallee)) nofun)
    (fun hle => absurd (hrank ▸ hle) (by decide))

/-- An operand of a prefix operator is legible if it is read as one. -/
theorem of_unary (hrank : e.rank = .unary) (h : YieldsUnary e) : Legible e :=
  of_yieldsFrom hopen h.yieldsFrom (fun hle => absurd (hrank ▸ hle) (by decide))
    (fun hcallee => absurd (hrank.symm.trans (Expr.rank_of_isCallee hcallee)) nofun) (fun _ => h)

/-- An expression with a suffix is legible if it is met as one that may have more. -/
theorem of_suffixed (hrank : e.rank = .suffixed) (h : FollowsSuffixed e)
    (hcallee : e.isCallee = true → FollowsCallee e) : Legible e := by
  have hunary := h.yieldsUnary (hrank ▸ hopen)
  exact of_yieldsFrom hopen hunary.yieldsFrom (fun _ => h) hcallee fun _ => hunary

/-- A primary expression is met by a chain of suffixes and by a chain of members. -/
theorem of_primary (hrank : e.rank = .suffixed)
    (h : ∀ ⦃n : Nat⦄ ⦃s s' : ParserState⦄, Spelled s e.print s' → s.ahead.length ≤ n →
      Yields (primaryExpr (exprWithin n)) e s s') : Legible e := by
  refine of_suffixed hopen hrank (fun n s s' hs hn => .of_yields (h hs hn)) fun _ n s s' hs hn => ?_
  obtain ⟨n, rfl⟩ : ∃ k, n = k + 1 := ⟨n - 1, by omega⟩
  exact .of_yields (h hs (Nat.le_of_lt_succ hn))

end Legible

/-! ## Lists -/

section Lists

variable {α β : Type} {print : α → List TokenKind} {erase : α → β} {close : Mark}

/-- Rounds that read one item each, and go on after a comma, read a list of items. -/
theorem collectUpTo_items {step : Parser (List α × Bool)} {n : Nat} :
    ∀ {as : List α} {m : Nat} {s s' : ParserState}, as ≠ [] → as.length ≤ m →
      Spelled s (TokenKind.commas (as.map print) ++ [TokenKind.mark close]) s' → s.ahead.length ≤ n →
      (∀ a ∈ as, ∃ k, (print a).head? = some k ∧ k ≠ .mark close) →
      (∀ a ∈ as, ∀ ⦃s s' : ParserState⦄, Spelled s (print a ++ [TokenKind.mark close]) s' → s.ahead.length ≤ n →
        ∃ b, step s = .ok ([b], false) s' ∧ erase b = erase a) →
      (∀ a ∈ as, ∀ ⦃s s' : ParserState⦄, Spelled s (print a ++ [TokenKind.mark .comma]) s' → s.ahead.length ≤ n →
        s'.here.kind ≠ .mark close → ∃ b, step s = .ok ([b], true) s' ∧ erase b = erase a) →
      ∃ bs, collectUpTo step m s = .ok bs s' ∧ bs.map erase = as.map erase
  | [], _, _, _, hne, _, _, _, _, _, _ => absurd rfl hne
  | [a], m, s, s', _, hm, hs, hn, _, hlast, _ => by
    obtain ⟨m, rfl⟩ : ∃ k, m = k + 1 := ⟨m - 1, by simp at hm; omega⟩
    obtain ⟨b, hb, hab⟩ := hlast a List.mem_cons_self hs hn
    refine ⟨[b], ?_, by simp [hab]⟩
    rw [collectUpTo, bind_of_ok hb]
    rfl
  | a :: a' :: as, m, s, s', _, hm, hs, hn, hopen, hlast, hmore => by
    obtain ⟨m, rfl⟩ : ∃ k, m = k + 1 := ⟨m - 1, by simp at hm; omega⟩
    have hs : Spelled s ((print a ++ [TokenKind.mark .comma]) ++
        (TokenKind.commas ((a' :: as).map print) ++ [TokenKind.mark close])) s' := by
      simpa [TokenKind.commas] using hs
    obtain ⟨s₁, hs₁, hs'⟩ := hs.split _
    have hlen := hs₁.length_ahead
    obtain ⟨k, hk, hne⟩ := hopen a' (by simp)
    have hhere : s₁.here.kind = k := by
      apply hs'.here_of_head?
      cases as <;> simp [TokenKind.commas, hk]
    obtain ⟨b, hb, hab⟩ := hmore a List.mem_cons_self hs₁ hn (by rw [hhere]; exact hne)
    obtain ⟨bs, hbs, habs⟩ := collectUpTo_items (m := m) (by simp) (by simp at hm ⊢; omega) hs' (by omega)
      (fun x hx => hopen x (List.mem_cons_of_mem _ hx)) (fun x hx => hlast x (List.mem_cons_of_mem _ hx))
      fun x hx => hmore x (List.mem_cons_of_mem _ hx)
    refine ⟨b :: bs, ?_, by rw [List.map_cons, hab, habs]; rfl⟩
    rw [collectUpTo, bind_of_ok hb]
    dsimp only
    rw [if_pos rfl, bind_of_ok hbs]
    rfl

/-- There are no more texts than tokens and one. -/
theorem TokenKind.length_le_commas : ∀ kss : List (List TokenKind), kss.length ≤ (commas kss).length + 1
  | [] => Nat.zero_le _
  | [_] => Nat.le_add_left _ _
  | ks :: ks' :: kss => by
    have := length_le_commas (ks' :: kss)
    simp only [commas, List.length_cons, List.length_append] at this ⊢
    omega

/-- The closing brackets of lists. -/
theorem stopsExpr_of_close {s : ParserState} (hclose : close ∈ [.rparen, .rbracket, .rbrace])
    (h : s.here.kind = .mark close) : StopsExpr s := by
  refine stopsExpr_of_mark h ?_
  simp only [List.mem_cons, List.not_mem_nil, or_false] at hclose ⊢
  tauto

/-- A list up to a closing bracket is read item by item. -/
theorem listUpTo_items {item : Parser α} (separator : Missing) {n : Nat} {as : List α} {s s' : ParserState}
    (hclose : close ∈ [.rparen, .rbracket, .rbrace])
    (hopen : ∀ a ∈ as, ∃ k, (print a).head? = some k ∧ k ≠ .mark close)
    (hitem : ∀ a ∈ as, ∀ ⦃s s' : ParserState⦄, Spelled s (print a) s' → s.ahead.length ≤ n → StopsExpr s' →
      ∃ b, item s = .ok b s' ∧ erase b = erase a)
    (hs : Spelled s (TokenKind.commas (as.map print) ++ [TokenKind.mark close]) s') (hn : s.ahead.length ≤ n) :
    ∃ bs, listUpTo close separator item s = .ok bs s' ∧ bs.map erase = as.map erase := by
  have hcomma : close ≠ .comma := by
    rintro rfl
    simp at hclose
  unfold listUpTo Parser.collect
  cases as with
  | nil =>
    refine ⟨[], ?_, rfl⟩
    rw [run_bounded, collectUpTo, @bind_of_ok _ _ _ _ _ s' ([], false) (by
      rw [run_accept, if_pos hs.here, hs.eq_next (by simp)]
      rfl)]
    rfl
  | cons a as =>
    have hlen := hs.length_ahead
    have hcommas := TokenKind.length_le_commas ((a :: as).map print)
    simp only [List.length_map, List.length_append] at hlen hcommas
    refine collectUpTo_items (by simp) (by omega) hs hn hopen ?_ ?_
    · intro a ha s s' hs hn
      obtain ⟨s₁, hs₁, hs'⟩ := hs.split _
      obtain ⟨k, hk, hne⟩ := hopen a ha
      obtain ⟨b, hb, hab⟩ := hitem a ha hs₁ hn (stopsExpr_of_close hclose hs'.here)
      refine ⟨b, ?_, hab⟩
      rw [run_accept, if_neg (by rw [hs₁.here_of_head? hk]; exact hne), if_neg Bool.false_ne_true, bind_of_ok hb,
        run_accept, if_pos hs'.here, hs'.eq_next (by simp)]
      rfl
    · intro a ha s s' hs hn _
      obtain ⟨s₁, hs₁, hs'⟩ := hs.split _
      obtain ⟨k, hk, hne⟩ := hopen a ha
      obtain ⟨b, hb, hab⟩ := hitem a ha hs₁ hn (stopsExpr_of_mark hs'.here (by decide))
      refine ⟨b, ?_, hab⟩
      rw [run_accept, if_neg (by rw [hs₁.here_of_head? hk]; exact hne), if_neg Bool.false_ne_true, bind_of_ok hb,
        run_accept, if_neg (by rw [hs'.here]; exact fun h => hcomma (TokenKind.mark.inj h).symm), if_neg Bool.false_ne_true,
        bind_of_ok (expect_of_mark separator hs'.here), hs'.eq_next (by simp)]
      rfl

end Lists

/-! ## What stands inside -/

namespace Legible

variable {e : Expr} {n : Nat} {s s' : ParserState}

/-- An expression inside another one is read back. -/
theorem inner (h : Legible e) (hs : Spelled s e.print s') (hn : s.ahead.length < n) (hstops : StopsExpr s') :
    Yields (exprWithin n .assignment) e s s' := by
  obtain ⟨n, rfl⟩ : ∃ k, n = k + 1 := ⟨n - 1, by omega⟩
  exact h.expr hs (Nat.le_of_lt_succ hn) hstops

/-- The operand of a prefix operator is read back. -/
theorem innerUnary (h : Legible e) (hrank : .unary ≤ e.rank) (hs : Spelled s e.print s') (hn : s.ahead.length < n)
    (hstops : StopsUnary s') : Yields (exprWithin n .unary) e s s' := by
  obtain ⟨n, rfl⟩ : ∃ k, n = k + 1 := ⟨n - 1, by omega⟩
  exact h.unary hrank hs (Nat.le_of_lt_succ hn) hstops

/-- The exponent of a power is read back. -/
theorem innerPower (h : Legible e) (hrank : .power ≤ e.rank) (hs : Spelled s e.print s') (hn : s.ahead.length < n)
    (hstops : StopsFrom 11 s') : Yields (exprWithin n .exponent) e s s' := by
  obtain ⟨n, rfl⟩ : ∃ k, n = k + 1 := ⟨n - 1, by omega⟩
  exact h.binary 11 (Nat.le_refl _) hrank hs (Nat.le_of_lt_succ hn) hstops

/-- The tokens of a legible expression start as those of an expression may. -/
theorem exists_print_eq (h : Legible e) : ∃ k ks, e.print = k :: ks ∧ k.opensExpr = true := by
  obtain ⟨k, hk, hopens, -⟩ := h.opening
  obtain ⟨ks, hks⟩ := List.head?_eq_some_iff.mp hk
  exact ⟨k, ks, hks, hopens⟩

/-- So there is at least one of them. -/
theorem print_ne_nil (h : Legible e) : e.print ≠ [] := by
  obtain ⟨k, ks, hks, -⟩ := h.exists_print_eq
  rw [hks]
  exact List.cons_ne_nil k ks

/-- What is written starts with no closing bracket. -/
theorem head_ne (h : Legible e) {k : TokenKind} (hk : k.opensExpr = false) :
    ∃ l, e.print.head? = some l ∧ l ≠ k := by
  obtain ⟨l, hl, hopens, -⟩ := h.opening
  exact ⟨l, hl, TokenKind.ne_of_opensExpr hopens hk⟩

end Legible

section Inside

variable {n : Nat} {s s' : ParserState} {args : List Expr}

/-- A round of arguments reads one. -/
theorem arguments_items (hargs : ∀ a ∈ args, Legible a)
    (hs : Spelled s (TokenKind.commas (args.map Expr.print) ++ [TokenKind.mark .rparen]) s') (hn : s.ahead.length < n) :
    ∃ args', arguments (exprWithin n) s = .ok args' s' ∧ args'.map Expr.erase = args.map Expr.erase := by
  cases args with
  | nil =>
    refine ⟨[], ?_, rfl⟩
    rw [arguments, run_accept, if_pos hs.here, hs.eq_next (by simp)]
    rfl
  | cons a as =>
    have hopen : ∀ x ∈ a :: as, ∃ k, x.print.head? = some k ∧ k ≠ .mark .rparen :=
      fun x hx => (hargs x hx).head_ne rfl
    have hhere : s.here.kind ≠ .mark .rparen := by
      obtain ⟨k, hk, hne⟩ := hopen a List.mem_cons_self
      rw [hs.here_of_head? (k := k) (by cases as <;> simp [TokenKind.commas, hk])]
      exact hne
    have hlen := hs.length_ahead
    have hcommas := TokenKind.length_le_commas ((a :: as).map Expr.print)
    simp only [List.length_map, List.length_append] at hlen hcommas
    rw [arguments, run_accept, if_neg hhere, if_neg Bool.false_ne_true]
    unfold Parser.collect
    refine collectUpTo_items (n := n - 1) (by simp) (by omega) hs (by omega) hopen ?_ ?_
    · intro x hx s s' hs hn
      obtain ⟨s₁, hs₁, hs'⟩ := hs.split _
      obtain ⟨b, hb, hab⟩ := (hargs x hx).inner (n := n) hs₁ (by omega) (stopsExpr_of_mark hs'.here (by decide))
      refine ⟨b, ?_, hab⟩
      rw [bind_of_ok (attempt_eq_ok_some.mpr hb)]
      dsimp only
      rw [run_accept, if_pos hs'.here, hs'.eq_next (by simp)]
      rfl
    · intro x hx s s' hs hn hnext
      obtain ⟨s₁, hs₁, hs'⟩ := hs.split _
      obtain ⟨b, hb, hab⟩ := (hargs x hx).inner (n := n) hs₁ (by omega) (stopsExpr_of_mark hs'.here (by decide))
      refine ⟨b, ?_, hab⟩
      rw [bind_of_ok (attempt_eq_ok_some.mpr hb)]
      dsimp only
      rw [run_accept, if_neg (by rw [hs'.here]; simp), if_neg Bool.false_ne_true, run_accept, if_pos hs'.here,
        if_pos rfl, run_accept, ← hs'.eq_next (by simp), if_neg hnext]
      rfl

/-- A word is not the end of the input. -/
theorem TokenKind.ofWord_ne_end (name : String) : ofWord name ≠ .endOfInput := by
  intro h
  have := memberName?_ofWord name
  rw [h] at this
  cases this

/-- A member after a point, or after `?.`, is read back. -/
theorem memberSuffix_spelled {k : TokenKind} {name : Ident} (hs : Spelled s [k, .ofWord name.name] s')
    (hk : k ≠ .endOfInput) (target : Expr) :
    ∃ span member, memberSuffix target s = .ok (.member span target member) s' ∧ member.erase = name.erase := by
  have hname := hs.next hk
  refine ⟨target.span.through s.next.here.span, ⟨name.name, s.next.here.span⟩, ?_, rfl⟩
  have hident : identBy TokenKind.memberName? .memberName s.next = .ok ⟨name.name, s.next.here.span⟩ s' :=
    identBy_eq_ok.mpr ⟨name.name, by rw [hname.here, TokenKind.memberName?_ofWord], rfl,
      hname.eq_next (TokenKind.ofWord_ne_end _)⟩
  rw [memberSuffix, run_advance, bind_of_ok hident]
  rfl

/-- An index after its opening bracket is read back. -/
theorem indexSuffix_spelled {key : Expr} (hkey : Legible key) (hs : Spelled s (key.print ++ [TokenKind.mark .rbracket]) s')
    (hn : s.ahead.length < n) (target : Expr) :
    ∃ span key', indexSuffix (exprWithin n) target s = .ok (.index span target key') s' ∧ key'.erase = key.erase := by
  obtain ⟨s₁, hs₁, hs'⟩ := hs.split _
  obtain ⟨key', hrun, heq⟩ := hkey.inner hs₁ hn (stopsExpr_of_mark hs'.here (by decide))
  refine ⟨s'.spanFrom target.span.start, key', ?_, heq⟩
  rw [indexSuffix, bind_of_ok hrun, bind_of_ok (expect_of_mark _ hs'.here), run_spanFrom, ← hs'.eq_next nofun]
  rfl

/-- The arguments of a call after the opening parenthesis are read back. -/
theorem callSuffix_spelled (hargs : ∀ a ∈ args, Legible a)
    (hs : Spelled s (TokenKind.commas (args.map Expr.print) ++ [TokenKind.mark .rparen]) s') (hn : s.ahead.length < n)
    (target : Expr) :
    ∃ span args', callSuffix (exprWithin n) target s = .ok (.call span target args') s' ∧
      args'.map Expr.erase = args.map Expr.erase := by
  obtain ⟨args', hrun, heq⟩ := arguments_items hargs hs hn
  refine ⟨s'.spanFrom target.span.start, args', ?_, heq⟩
  rw [callSuffix, bind_of_ok hrun, run_spanFrom]
  rfl

end Inside

end ContractCompiler
