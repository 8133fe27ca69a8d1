import ContractCompiler.Proofs.Reading.Extent

/-!
# Bounds that are never reached

Repetition, skipping and what is read inside itself go on only as often, or as deep, as there are tokens ahead, and a parser
that reaches this bound fails as `exhausted`. `Settles k p` says that with fewer than `k` tokens ahead this happens neither to
`p` nor to anything that `p` attempts. A loop settles if its rounds do and every round but the last takes a token
(`settles_collect`, `settles_chain`). Types, expressions and statements settle because they take a token before they come to
what stands inside them: `Starts k p` says that, with at most `k` tokens ahead, `p` settles and takes a token unless it fails.
-/

namespace ContractCompiler

/-- The tokens end with the end of the input, and no error says that a bound was reached. -/
structure ParserState.Ready (s : ParserState) : Prop where
  sealed : s.Sealed
  errors : ∀ e ∈ s.errors, e.fault ≠ .exhausted

/-- An error may be recorded, unless it says that a bound was reached. -/
theorem ParserState.Ready.record {s : ParserState} (hs : s.Ready) {e : ParseError} (he : e.fault ≠ .exhausted) :
    ParserState.Ready { s with errors := s.errors ++ [e] } :=
  ⟨hs.sealed, List.forall_mem_append.mpr ⟨hs.errors, List.forall_mem_singleton.mpr he⟩⟩

/-- A state stays ready after one token. -/
theorem ParserState.Ready.next {s : ParserState} (hs : s.Ready) : s.next.Ready := by
  obtain ⟨ts, hts⟩ := passed_next s
  exact ⟨hts.sealed hs.sealed, hs.errors⟩

namespace Parser

/-- Reading ended without reaching a bound. -/
def Settled {α : Type} : EStateM.Result ParseError ParserState α → Prop
  | .ok _ s => s.Ready
  | .error e s => e.fault ≠ .exhausted ∧ s.Ready

/-- With fewer than `k` tokens ahead, `p` ends without reaching a bound. -/
class Settles {α : Type} (k : Nat) (p : Parser α) : Prop where
  settled : ∀ s, s.Ready → s.ahead.length < k → Settled (p s)

/-- From `s` on, `p` ends without reaching a bound, having taken a token unless it failed. -/
def StartsAt {α : Type} (p : Parser α) (s : ParserState) : Prop :=
  Settled (p s) ∧ ∀ a s', p s = .ok a s' → Took s s'

/-- With at most `k` tokens ahead, `p` ends without reaching a bound, and takes a token unless it fails. So do types,
expressions and statements, if what stands inside them settles with fewer than `k` tokens ahead. -/
class Starts {α : Type} (k : Nat) (p : Parser α) : Prop where
  startsAt : ∀ s, s.Ready → s.ahead.length ≤ k → StartsAt p s

/-- Whatever `p` reads, it takes at least one token if the value is as `P` says. -/
def Takes {α : Type} (P : α → Prop) (p : Parser α) : Prop :=
  ∀ s s' a, s.Sealed → p s = .ok a s' → P a → Took s s'

variable {α β : Type} {k : Nat} {p q : Parser α} {f : α → Parser β} {P : α → Prop} {s : ParserState}

/-- Fewer tokens are ahead after some were taken. -/
theorem Took.length_lt {s s' : ParserState} (h : Took s s') : s'.ahead.length < s.ahead.length := by
  obtain ⟨ts, hne, hts⟩ := h
  have hlength := hts.length_ahead
  have hpos := List.length_pos_iff.mpr hne
  omega

/-- More tokens may be passed after some were taken. -/
theorem Took.trans {ts : List Token} {s s₁ s' : ParserState} (h : Took s s₁) (h' : Passed s₁ ts s') : Took s s' := by
  obtain ⟨us, hne, hus⟩ := h
  exact ⟨us ++ ts, by simp [hne], hus.trans h'⟩

instance settles_of_starts [h : Starts k p] : Settles k p :=
  ⟨fun s hs hlength => (h.startsAt s hs (Nat.le_of_lt hlength)).1⟩

/-- What settles whatever the bound, and takes a token, starts. -/
theorem Starts.of_settles (h : ∀ k, Settles k p) (hp : Takes (fun _ => True) p) : Starts k p where
  startsAt s hs hlength :=
    ⟨(h (k + 1)).settled s hs (Nat.lt_succ_of_le hlength), fun a s' hok => hp s s' a hs.sealed hok trivial⟩

/-- What follows is read with no more tokens ahead. -/
theorem Settled.bind (hp : Settled (p s))
    (hf : ∀ a s₁, p s = .ok a s₁ → s₁.Ready → s₁.ahead.length ≤ s.ahead.length → Settled (f a s₁)) :
    Settled ((p >>= f) s) := by
  cases h : p s with
  | ok a s₁ =>
    rw [h] at hp
    obtain ⟨ts, hts⟩ := passed_of_ok h
    rw [bind_of_ok h]
    exact hf a s₁ h hp (hts.length_ahead ▸ Nat.le_add_left _ _)
  | error e s₁ =>
    rw [h] at hp
    rw [bind_of_error h]
    exact hp

instance settles_bind [hp : Settles k p] [hf : ∀ a, Settles k (f a)] : Settles k (p >>= f) where
  settled s hs hlength := (hp.settled s hs hlength).bind
    fun a s₁ _ hs₁ hle => (hf a).settled s₁ hs₁ (Nat.lt_of_le_of_lt hle hlength)

/-- Two steps settle if each of them does. -/
theorem Settles.bind (hp : Settles k p) (hf : ∀ a, Settles k (f a)) : Settles k (p >>= f) := settles_bind

/-- After a token was taken, what follows is read with fewer tokens ahead. -/
theorem StartsAt.bind (hp : StartsAt p s) (hf : ∀ a, Settles k (f a)) (hlength : s.ahead.length ≤ k) :
    StartsAt (p >>= f) s := by
  obtain ⟨hsettled, htook⟩ := hp
  refine ⟨hsettled.bind fun a s₁ hok hs₁ _ => (hf a).settled s₁ hs₁ ?_, fun b s' h => Took.bind h htook⟩
  exact Nat.lt_of_lt_of_le (htook a s₁ hok).length_lt hlength

namespace Starts

/-- A start may be followed by what settles. -/
theorem bind (hp : Starts k p) (hf : ∀ a, Settles k (f a)) : Starts k (p >>= f) :=
  ⟨fun s hs hlength => (hp.startsAt s hs hlength).bind hf hlength⟩

/-- What comes before may take nothing. -/
theorem after (hp : ∀ k, Settles k p) (hf : ∀ a, Starts k (f a)) : Starts k (p >>= f) where
  startsAt s hs hlength := by
    have hsettled := ((hp (k + 1)).settled s hs (Nat.lt_succ_of_le hlength)).bind (f := f)
      fun a s₁ _ hs₁ hle => ((hf a).startsAt s₁ hs₁ (Nat.le_trans hle hlength)).1
    refine ⟨hsettled, fun b s' h => ?_⟩
    obtain ⟨a, s₁, ha, h⟩ := bind_eq_ok.mp h
    obtain ⟨ts, hts⟩ := passed_of_ok ha
    have hs₁ : s₁.Ready := by
      have hready := (hp (k + 1)).settled s hs (Nat.lt_succ_of_le hlength)
      rwa [ha] at hready
    have hle := hts.length_ahead
    obtain ⟨us, hne, hus⟩ := ((hf a).startsAt s₁ hs₁ (by omega)).2 b s' h
    exact ⟨ts ++ us, by simp [hne], hts.trans hus⟩

/-- What depends on the token at the cursor. -/
theorem token {f : Token → Parser β} (h : ∀ s, s.Ready → s.ahead.length ≤ k → StartsAt (f s.here) s) :
    Starts k (here >>= f) := ⟨h⟩

end Starts

/-- The token at the cursor is taken before anything else. -/
theorem StartsAt.advance {f : Unit → Parser β} (hk : s.here.kind ≠ .endOfInput) (hf : Settles k (f ())) (hs : s.Ready)
    (hlength : s.ahead.length ≤ k) : StartsAt (advance >>= f) s := by
  have hnext := took_here hs.sealed hk
  refine ⟨hf.settled s.next hs.next (Nat.lt_of_lt_of_le hnext.length_lt hlength), fun b s' h => ?_⟩
  rw [run_advance] at h
  obtain ⟨ts, hts⟩ := passed_of_ok h
  exact hnext.trans hts

/-! ## The small parsers settle -/

instance settles_look (view : ParserState → α) : Settles k (look view) := ⟨fun _ hs _ => hs⟩

instance settles_pure (a : α) : Settles k (pure a) := settles_look _

instance settles_get : Settles k get := settles_look _

instance settles_here : Settles k here := settles_look _

instance settles_kindAt (n : Nat) : Settles k (kindAt n) := settles_look _

instance settles_atEnd : Settles k atEnd := settles_look _

instance settles_spanFrom (start : Nat) : Settles k (spanFrom start) := settles_look _

instance settles_check (kind : TokenKind) : Settles k (check kind) := settles_look _

/-- A failure settles, unless it says that a bound was reached. -/
theorem settles_fail {fault : ParseFault} (h : fault ≠ .exhausted) : Settles k (fail fault : Parser α) :=
  ⟨fun _ hs _ => ⟨h, hs⟩⟩

instance settles_missing (what : Missing) : Settles k (missing what : Parser α) := settles_fail nofun

instance settles_destructuring : Settles k (fail .destructuring : Parser α) := settles_fail nofun

instance settles_recordMissing (what : Missing) : Settles k (recordMissing what) := ⟨fun _ hs _ => hs.record nofun⟩

instance settles_note (event : Event) : Settles k (note event) := ⟨fun _ hs _ => ⟨hs.sealed, hs.errors⟩⟩

instance settles_advance : Settles k advance := ⟨fun _ hs _ => hs.next⟩

instance settles_map (g : α → β) [Settles k p] : Settles k (g <$> p) := by
  rw [map_eq_bind]
  infer_instance

instance settles_discard [Settles k p] : Settles k (discard p) := settles_map _

instance settles_ite (c : Prop) [Decidable c] [hp : Settles k p] [hq : Settles k q] : Settles k (if c then p else q) := by
  split
  · exact hp
  · exact hq

/-- A choice settles if both ways do. -/
theorem Settles.ite {c : Prop} [Decidable c] (hp : Settles k p) (hq : Settles k q) : Settles k (if c then p else q) :=
  settles_ite c

/-- What fails is recorded, so a bound that was reached would be known. -/
instance settles_attempt [hp : Settles k p] : Settles k (attempt p) where
  settled s hs hlength := by
    have hsettled := hp.settled s hs hlength
    cases h : p s with
    | ok a s₁ =>
      rw [h] at hsettled
      rw [attempt_of_ok h]
      exact hsettled
    | error e s₁ =>
      rw [h] at hsettled
      rw [attempt_of_error h]
      exact hsettled.2.record hsettled.1

instance settles_advanceBy (n : Nat) : Settles k (advanceBy n) := by
  induction n with
  | zero => exact settles_pure ()
  | succ n ih =>
    unfold advanceBy
    infer_instance

instance settles_acceptKind (kind : TokenKind) : Settles k (acceptKind kind) := by
  unfold acceptKind
  infer_instance

instance settles_accept (mark : Mark) : Settles k (accept mark) := settles_acceptKind _

instance settles_acceptWord (word : Keyword) : Settles k (acceptWord word) := settles_acceptKind _

instance settles_expect (mark : Mark) (what : Missing) : Settles k (expect mark what) := by
  unfold expect
  infer_instance

instance settles_expectWord (word : Keyword) (what : Missing) : Settles k (expectWord word what) := by
  unfold expectWord
  infer_instance

instance settles_identBy (name? : TokenKind → Option String) (what : Missing) : Settles k (identBy name? what) := by
  refine .bind settles_here fun t => ?_
  cases name? t.kind <;> infer_instance

instance settles_bindingIdent (what : Missing) : Settles k (bindingIdent what) := settles_identBy _ _

instance settles_declaredIdent (what : Missing) : Settles k (declaredIdent what) := settles_identBy _ _

instance settles_after (mark : Mark) [Settles k p] : Settles k (after mark p) := by
  unfold after
  infer_instance

/-! ## Loops settle -/

instance settles_skip {σ : Type} (step : σ → TokenKind → Skip σ) (state : σ) : Settles k (skip step state) where
  settled s hs _ := by
    obtain ⟨ts, s', hskip, hskips⟩ := skips_skip step state hs.sealed
    rw [hskip]
    exact ⟨(hskips.passed hs.sealed).sealed hs.sealed, hskips.errors_journal.1 ▸ hs.errors⟩

instance settles_skipAngles : Settles k skipAngles := by
  unfold skipAngles
  infer_instance

/-- A loop settles if its rounds do and every round but the last takes a token. -/
theorem settles_collect {step : Parser (List α × Bool)} (hstep : Settles k step)
    (htakes : Takes (fun r => r.2 = true) step) : Settles k (collect step) := by
  have rounds : ∀ n s, s.Ready → s.ahead.length < k → s.ahead.length < n → Settled (collectUpTo step n s) := by
    intro n
    induction n with
    | zero => exact fun _ _ _ hlength => absurd hlength (Nat.not_lt_zero _)
    | succ n ih =>
      intro s hs hk hn
      refine (hstep.settled s hs hk).bind fun r s₁ hround hs₁ hle => ?_
      obtain ⟨items, more⟩ := r
      cases more with
      | false => exact hs₁
      | true =>
        have hlt := (htakes s s₁ _ hs.sealed hround rfl).length_lt
        exact (ih s₁ hs₁ (by omega) (by omega)).bind fun _ _ _ hs₂ _ => hs₂
  exact ⟨fun s hs hk => rounds (s.ahead.length + 1) s hs hk (Nat.lt_succ_self _)⟩

/-- A loop that extends a value settles if its rounds do and every round but the last takes a token. -/
theorem settles_chain {step : α → Parser (Option α)} (hstep : ∀ a, Settles k (step a))
    (htakes : ∀ a, Takes (fun next => next.isSome = true) (step a)) (a : α) : Settles k (chain step a) := by
  have rounds : ∀ n s a, s.Ready → s.ahead.length < k → s.ahead.length < n → Settled (chainUpTo step n a s) := by
    intro n
    induction n with
    | zero => exact fun _ _ _ _ hlength => absurd hlength (Nat.not_lt_zero _)
    | succ n ih =>
      intro s a hs hk hn
      refine ((hstep a).settled s hs hk).bind fun next s₁ hround hs₁ hle => ?_
      cases next with
      | none => exact hs₁
      | some a' =>
        have hlt := (htakes a s s₁ _ hs.sealed hround rfl).length_lt
        exact ih s₁ a' hs₁ (by omega) (by omega)
  exact ⟨fun s hs hk => rounds (s.ahead.length + 1) s a hs hk (Nat.lt_succ_self _)⟩

/-! ## What is read inside itself settles -/

/-- What is read inside itself settles with as many tokens ahead as its depth is bounded by, if it starts wherever what
stands inside it settles. -/
theorem settles_within {ι : Type} {p : Nat → ι → Parser α}
    (layer : ∀ n k, (∀ i, Settles k (p n i)) → ∀ i, Starts k (p (n + 1) i)) (n : Nat) :
    ∀ k, k ≤ n → ∀ i, Settles k (p n i) := by
  have none_ahead : ∀ n i, Settles 0 (p n i) := fun _ _ => ⟨fun _ _ hlength => absurd hlength (Nat.not_lt_zero _)⟩
  induction n with
  | zero =>
    intro k hk i
    obtain rfl : k = 0 := by omega
    exact none_ahead 0 i
  | succ n ih =>
    intro k hk i
    cases k with
    | zero => exact none_ahead _ i
    | succ k =>
      refine ⟨fun s hs hlength => ?_⟩
      exact ((layer n k (ih k (by omega)) i).startsAt s hs (Nat.le_of_lt_succ hlength)).1

/-- The tokens ahead suffice as a bound on the depth. -/
theorem settles_bounded {ι : Type} {p : Nat → ι → Parser α}
    (layer : ∀ n k, (∀ i, Settles k (p n i)) → ∀ i, Starts k (p (n + 1) i)) (i : ι) :
    Settles k (bounded fun n => p n i) where
  settled s hs _ :=
    (settles_within layer (s.ahead.length + 1) _ (Nat.le_refl _) i).settled s hs (Nat.lt_succ_self _)

/-! ## Taking a token -/

namespace Takes

/-- A value that is not as `P` says need not take a token. -/
theorem pure {a : α} (h : ¬ P a) : Takes P (Pure.pure a) := by
  intro s s' a' _ hok ha
  obtain ⟨rfl, rfl⟩ := pure_eq_ok.mp hok
  exact absurd ha h

/-- The token is taken first. -/
theorem first {P : β → Prop} (hp : Takes (fun _ => True) p) : Takes P (p >>= f) :=
  fun s _ _ hs h _ => Took.bind h fun a s₁ ha => hp s s₁ a hs ha trivial

/-- The token is taken later. -/
theorem later {P : β → Prop} (hf : ∀ a, Takes P (f a)) : Takes P (p >>= f) := by
  intro s s' b hs h hb
  obtain ⟨a, s₁, ha, h⟩ := bind_eq_ok.mp h
  obtain ⟨ts, hts⟩ := passed_of_ok ha
  obtain ⟨us, hne, hus⟩ := hf a s₁ s' b (hts.sealed hs) h hb
  exact ⟨ts ++ us, by simp [hne], hts.trans hus⟩

/-- A choice takes a token if both ways do. -/
theorem ite {c : Prop} [Decidable c] (hp : Takes P p) (hq : Takes P q) : Takes P (if c then p else q) := by
  split
  · exact hp
  · exact hq

/-- A token that is accepted is taken. -/
theorem acceptKind {kind : TokenKind} (hkind : kind ≠ .endOfInput) : Takes (fun b => b = true) (acceptKind kind) := by
  intro s s' b hs h hb
  rcases acceptKind_eq_ok.mp h with ⟨hk, -, rfl⟩ | ⟨-, hfalse, -⟩
  · exact took_here hs (hk ▸ hkind)
  · rw [hb] at hfalse
    cases hfalse

/-- If the mark was there it was taken, and otherwise something else is. -/
theorem accept {P : β → Prop} {mark : Mark} {p q : Parser β} (hq : Takes P q) :
    Takes P (accept mark >>= fun found => if found = true then p else q) := by
  intro s s' b hs h hb
  obtain ⟨found, s₁, hfound, hrest⟩ := bind_eq_ok.mp h
  cases found with
  | true =>
    obtain ⟨us, hus⟩ := passed_of_ok hrest
    exact (acceptKind (by simp) s s₁ true hs hfound rfl).trans hus
  | false =>
    rw [if_neg Bool.false_ne_true] at hrest
    rcases acceptKind_eq_ok.mp hfound with ⟨-, htrue, -⟩ | ⟨-, -, rfl⟩
    · cases htrue
    · exact hq s₁ s' b hs hrest hb

/-- A mark that is expected is taken. -/
theorem expect {P : Unit → Prop} (mark : Mark) (what : Missing) : Takes P (expect mark what) := by
  intro s s' u hs h _
  obtain ⟨hk, rfl⟩ := expect_eq_ok.mp h
  exact took_here hs (hk ▸ by simp)

theorem identBy {P : Ident → Prop} {name? : TokenKind → Option String} (hend : name? .endOfInput = none) (what : Missing) :
    Takes P (identBy name? what) := by
  intro s s' i hs h _
  obtain ⟨t, ht, -⟩ := passed_identBy hend hs h
  exact ⟨[t], by simp, ht⟩

end Takes

namespace Starts

/-- A name starts whatever the bound. -/
theorem identBy {name? : TokenKind → Option String} (hend : name? .endOfInput = none) (what : Missing) :
    Starts k (identBy name? what) :=
  .of_settles (fun _ => settles_identBy name? what) (.identBy hend what)

theorem expect (mark : Mark) (what : Missing) : Starts k (expect mark what) :=
  .of_settles (fun _ => settles_expect mark what) (.expect mark what)

/-- After a mark, or something else that takes a token. -/
theorem accept {mark : Mark} (hp : Settles k p) (hq : Starts k q) :
    Starts k (accept mark >>= fun found => if found = true then p else q) where
  startsAt s hs hlength := by
    have haccept : Settled (Parser.accept mark s) := (settles_accept mark).settled s hs (Nat.lt_succ_of_le hlength)
    refine ⟨haccept.bind fun found s₁ hfound hs₁ hle => ?_, fun a s' h => ?_⟩
    · cases found with
      | true =>
        have hlt := (Takes.acceptKind (by simp) s s₁ true hs.sealed hfound rfl).length_lt
        exact hp.settled s₁ hs₁ (by omega)
      | false => exact (hq.startsAt s₁ hs₁ (by omega)).1
    · rw [run_accept] at h
      by_cases hk : s.here.kind = .mark mark
      · rw [if_pos hk, if_pos rfl] at h
        obtain ⟨ts, hts⟩ := passed_of_ok h
        exact (took_here hs.sealed (by simp [hk])).trans hts
      · rw [if_neg hk, if_neg Bool.false_ne_true] at h
        exact (hq.startsAt s hs hlength).2 a s' h

end Starts

end Parser

end ContractCompiler
