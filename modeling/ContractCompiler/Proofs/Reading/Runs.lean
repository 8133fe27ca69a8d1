import ContractCompiler.Proofs.Reading.Passage

/-!
# Runs of parsers

How the small parsers run, as equations and as inversions, and what a run has read. `Got G s s'` says that the
tokens between `s` and `s'` are as `G` says; `G` is told whether it may count on a clean run, one that has recorded
no error. Repetition has one rule each for `chain` and `collect`. Skipping is `Skips`: it takes one token after another
for as long as its step says so, and no number bounds it (`skips_skip`).
-/

namespace ContractCompiler

namespace Parser

variable {α β : Type} {s s' : ParserState}

/-- Two steps succeed just if the first one does and the second one after it. -/
theorem bind_eq_ok {p : Parser α} {f : α → Parser β} {b : β} :
    (p >>= f) s = .ok b s' ↔ ∃ a s₁, p s = .ok a s₁ ∧ f a s₁ = .ok b s' := by
  cases h : p s with
  | ok a s₁ =>
    rw [bind_of_ok h]
    refine ⟨fun hf => ⟨a, s₁, rfl, hf⟩, ?_⟩
    rintro ⟨_, _, hp, hf⟩
    cases hp
    exact hf
  | error e s₁ => simp [bind_of_error h]

/-- A value alone succeeds with it and reads nothing. -/
theorem pure_eq_ok {a b : α} : (pure a : Parser α) s = .ok b s' ↔ a = b ∧ s = s' := by
  show EStateM.Result.ok a s = EStateM.Result.ok b s' ↔ _
  simp

/-- A mapped value comes from one that was read. -/
theorem map_eq_ok {f : α → β} {p : Parser α} {b : β} : (f <$> p) s = .ok b s' ↔ ∃ a, p s = .ok a s' ∧ f a = b := by
  rw [map_eq_bind, bind_eq_ok]
  constructor
  · rintro ⟨a, s₁, ha, h⟩
    obtain ⟨rfl, rfl⟩ := pure_eq_ok.mp h
    exact ⟨a, ha, rfl⟩
  · rintro ⟨a, ha, rfl⟩
    exact ⟨a, s', ha, rfl⟩

/-- Before `q` something was read or not. -/
theorem passed_of_skipIf {c : Prop} [Decidable c] {p : Parser α} {q : Parser β} {b : β}
    (h : (if c then p >>= fun _ => q else q) s = .ok b s') : ∃ ts s₁, Passed s ts s₁ ∧ q s₁ = .ok b s' := by
  split at h
  · obtain ⟨a, s₁, ha, h⟩ := bind_eq_ok.mp h
    obtain ⟨ts, hts⟩ := passed_of_ok ha
    exact ⟨ts, s₁, hts, h⟩
  · exact ⟨[], s, Passed.refl s, h⟩

/-- A value alone reads nothing. -/
theorem run_pure (a : α) (s : ParserState) : (pure a : Parser α) s = .ok a s := rfl

/-- What comes next may depend on the token at the cursor. -/
theorem run_here (f : Token → Parser β) (s : ParserState) : (here >>= f) s = f s.here s := rfl

/-- It may depend on a token further ahead. -/
theorem run_kindAt (n : Nat) (f : TokenKind → Parser β) (s : ParserState) :
    (kindAt n >>= f) s = f (s.kindAt n) s := rfl

/-- It may depend on whether the end of the input is reached. -/
theorem run_atEnd (f : Bool → Parser β) (s : ParserState) :
    (atEnd >>= f) s = f (decide (s.here.kind = .endOfInput)) s := rfl

/-- It may depend on the state. -/
theorem run_get (f : ParserState → Parser β) (s : ParserState) : (get >>= f) s = f s s := rfl

/-- A step moves the state on by one token. -/
theorem run_advance (f : Unit → Parser β) (s : ParserState) : (advance >>= f) s = f () s.next := rfl

/-- Two steps move it on by two. -/
theorem run_advanceTwice (f : Unit → Parser β) (s : ParserState) : (advanceBy 2 >>= f) s = f () s.next.next := rfl

/-- A span ends with the last token that was read. -/
theorem run_spanFrom (start : Nat) (f : Span → Parser β) (s : ParserState) :
    (spanFrom start >>= f) s = f (s.spanFrom start) s := rfl

/-- A check compares the token at the cursor, and reads nothing. -/
theorem run_check (kind : TokenKind) (f : Bool → Parser β) (s : ParserState) :
    (check kind >>= f) s = f (decide (s.here.kind = kind)) s := rfl

/-- The bound is one more than the number of tokens ahead. -/
theorem run_bounded (p : Nat → Parser α) (s : ParserState) : bounded p s = p (s.ahead.length + 1) s := rfl

/-- A kind is accepted by reading its token, if it is there. -/
theorem run_acceptKind (kind : TokenKind) (f : Bool → Parser β) (s : ParserState) :
    (acceptKind kind >>= f) s = if s.here.kind = kind then f true s.next else f false s := by
  by_cases h : s.here.kind = kind
  · have ha : acceptKind kind s = .ok true s.next := by
      rw [acceptKind, run_check, decide_eq_true h, if_pos rfl]
      rfl
    rw [bind_of_ok ha, if_pos h]
  · have ha : acceptKind kind s = .ok false s := by
      rw [acceptKind, run_check, decide_eq_false h, if_neg Bool.false_ne_true]
      rfl
    rw [bind_of_ok ha, if_neg h]

theorem run_accept (mark : Mark) (f : Bool → Parser β) (s : ParserState) :
    (accept mark >>= f) s = if s.here.kind = .mark mark then f true s.next else f false s :=
  run_acceptKind _ f s

/-- The answer tells whether the token is there, and only then it is read. -/
theorem acceptKind_eq_ok {kind : TokenKind} {b : Bool} : acceptKind kind s = .ok b s' ↔
    (s.here.kind = kind ∧ b = true ∧ s' = s.next) ∨ (s.here.kind ≠ kind ∧ b = false ∧ s' = s) := by
  rw [acceptKind, run_check]
  by_cases h : s.here.kind = kind
  · rw [decide_eq_true h, if_pos rfl, run_advance, pure_eq_ok]
    simp [h, eq_comm]
  · rw [decide_eq_false h, if_neg Bool.false_ne_true, pure_eq_ok]
    simp [h, eq_comm]

/-- A mark that is there is read. -/
theorem expect_of_mark {mark : Mark} (what : Missing) (h : s.here.kind = .mark mark) :
    expect mark what s = .ok () s.next := by
  rw [expect, run_accept, if_pos h]
  rfl

/-- Expecting a mark succeeds just if it is there. -/
theorem expect_eq_ok {mark : Mark} {what : Missing} {u : Unit} :
    expect mark what s = .ok u s' ↔ s.here.kind = .mark mark ∧ s' = s.next := by
  rw [expect, run_accept]
  by_cases h : s.here.kind = .mark mark
  · rw [if_pos h, if_pos rfl, run_pure]
    simp [h, eq_comm]
  · rw [if_neg h, if_neg Bool.false_ne_true]
    simp [h, missing]

/-- A name is read just if the token at the cursor has one. -/
theorem identBy_eq_ok {name? : TokenKind → Option String} {what : Missing} {i : Ident} :
    identBy name? what s = .ok i s' ↔
      ∃ name, name? s.here.kind = some name ∧ i = ⟨name, s.here.span⟩ ∧ s' = s.next := by
  rw [identBy, run_here]
  cases h : name? s.here.kind with
  | none => simp [missing]
  | some name =>
    simp only [run_advance, run_pure]
    simp [eq_comm]

/-- An attempt has a value just if the parser does. -/
theorem attempt_eq_ok_some {p : Parser α} {a : α} : attempt p s = .ok (some a) s' ↔ p s = .ok a s' := by
  cases h : p s with
  | ok b s₁ =>
    rw [attempt_of_ok h]
    simp
  | error e s₁ =>
    rw [attempt_of_error h]
    simp

/-- An attempt without a value has recorded the error of the failure. -/
theorem attempt_eq_ok_none {p : Parser α} : attempt p s = .ok none s' ↔
    ∃ e s₁, p s = .error e s₁ ∧ s' = { s₁ with errors := s₁.errors ++ [e] } := by
  cases h : p s with
  | ok a s₁ =>
    rw [attempt_of_ok h]
    simp
  | error e s₁ =>
    simp only [attempt_of_error h, EStateM.Result.ok.injEq, true_and, EStateM.Result.error.injEq]
    exact ⟨fun h => ⟨e, s₁, ⟨rfl, rfl⟩, h.symm⟩, fun ⟨_, _, ⟨h₁, h₂⟩, h⟩ => by rw [h, h₁, h₂]⟩

end Parser

/-! ## What a run has read -/

/-- The tokens between `s` and `s'` are as `G` says. On a clean run, one on which no error was recorded, `G` may be
asked with `true`. -/
def Got (G : Bool → List Token → Prop) (s s' : ParserState) : Prop :=
  ∃ ts, Passed s ts s' ∧ ∀ clean, (clean = true → s'.errors = s.errors) → G clean ts

namespace Got

variable {s s₁ s' : ParserState} {G H : Bool → List Token → Prop}

/-- What was got leads to a sealed state. -/
theorem sealed (h : Got G s s') (hs : s.Sealed) : s'.Sealed := by
  obtain ⟨ts, hp, _⟩ := h
  exact hp.sealed hs

/-- What was got, whether or not an error was recorded. -/
theorem loose (h : Got G s s') : ∃ ts, Passed s ts s' ∧ G false ts := by
  obtain ⟨ts, hts, hG⟩ := h
  exact ⟨ts, hts, hG false fun hfalse => absurd hfalse Bool.false_ne_true⟩

/-- Nothing was read. -/
theorem stay (s : ParserState) : Got (fun _ ts => ts = []) s s := ⟨[], Passed.refl s, fun _ _ => rfl⟩

/-- The token at the cursor was read. -/
theorem token (hs : s.Sealed) (hk : s.here.kind ≠ .endOfInput) : Got (fun _ ts => ts = [s.here]) s s.next :=
  ⟨[s.here], passed_here hs hk, fun _ _ => rfl⟩

/-- A mark at the cursor was read. -/
theorem mark {m : Mark} (hs : s.Sealed) (hk : s.here.kind = .mark m) : Got (fun _ ts => ts = [s.here]) s s.next :=
  token hs (by rw [hk]; exact nofun)

/-- A word at the cursor was read. -/
theorem word {k : Keyword} (hs : s.Sealed) (hk : s.here.kind = .keyword k) :
    Got (fun _ ts => ts = [s.here]) s s.next :=
  token hs (by rw [hk]; exact nofun)

/-- One run after another. -/
theorem seq (h : Got G s s₁) (h' : Got H s₁ s') :
    Got (fun clean ts => ∃ us vs, ts = us ++ vs ∧ G clean us ∧ H clean vs) s s' := by
  obtain ⟨us, hus, hG⟩ := h
  obtain ⟨vs, hvs, hH⟩ := h'
  refine ⟨us ++ vs, hus.trans hvs, fun clean hc => ⟨us, vs, rfl, hG clean ?_, hH clean ?_⟩⟩
  · exact fun ht => (hus.clean hvs (hc ht)).1
  · exact fun ht => (hus.clean hvs (hc ht)).2

/-- What follows from the tokens that were got. -/
theorem mono (h : Got G s s') (hGH : ∀ clean ts, Passed s ts s' → G clean ts → H clean ts) : Got H s s' := by
  obtain ⟨ts, hts, hG⟩ := h
  exact ⟨ts, hts, fun clean hc => hGH clean ts hts (hG clean hc)⟩

/-- Every parser has read some tokens. -/
theorem of_ok {α : Type} {p : Parser α} {a : α} (h : p s = .ok a s') : Got (fun _ _ => True) s s' := by
  obtain ⟨ts, hts⟩ := Parser.passed_of_ok h
  exact ⟨ts, hts, fun _ _ => trivial⟩

/-- An error was recorded and nothing read, so the run is not clean. -/
theorem recorded (s : ParserState) (e : ParseError) :
    Got (fun clean ts => ts = [] ∧ clean = false) s { s with errors := s.errors ++ [e] } := by
  refine ⟨[], ⟨rfl, rfl, List.prefix_append _ _⟩, fun clean hc => ⟨rfl, ?_⟩⟩
  cases clean with
  | false => rfl
  | true => simp at hc

/-- A failure that was recorded has read some tokens, and the run is not clean. -/
theorem of_recorded {ts : List Token} {e : ParseError} (h : Passed s ts s₁)
    (hs' : s' = { s₁ with errors := s₁.errors ++ [e] }) : Got (fun clean _ => clean = false) s s' := by
  subst hs'
  have h₁ : Got (fun _ _ => True) s s₁ := ⟨ts, h, fun _ _ => trivial⟩
  refine (h₁.seq (recorded s₁ e)).mono ?_
  rintro _ _ - ⟨_, _, -, -, -, hclean⟩
  exact hclean

variable {α : Type}

/-- Extending step by step: what holds of a value and the tokens it was read from, and is kept by a step, holds at
the end. -/
theorem chainUpTo {step : α → Parser (Option α)} {I : Bool → List Token → α → Prop}
    (hsome : ∀ {s s' : ParserState} {a a' : α}, s.Sealed → step a s = .ok (some a') s' →
      Got (fun clean ts => ∀ us, I clean us a → I clean (us ++ ts) a') s s')
    (hnone : ∀ {s s' : ParserState} {a : α}, s.Sealed → step a s = .ok none s' → s' = s) :
    ∀ (n : Nat) {s s' : ParserState} {a b : α}, s.Sealed → Parser.chainUpTo step n a s = .ok b s' →
      Got (fun clean ts => ∀ us, I clean us a → I clean (us ++ ts) b) s s' := by
  intro n
  induction n with
  | zero =>
    intro s s' a b _ h
    cases h
  | succ n ih =>
    intro s s' a b hs h
    rw [Parser.chainUpTo, Parser.bind_eq_ok] at h
    obtain ⟨r, s₁, hr, h⟩ := h
    cases r with
    | none =>
      obtain ⟨rfl, rfl⟩ := Parser.pure_eq_ok.mp h
      rw [hnone hs hr]
      exact (stay s).mono fun clean ts _ hts us hI => by rw [hts, List.append_nil]; exact hI
    | some a' =>
      have h₁ := hsome hs hr
      refine (h₁.seq (ih (h₁.sealed hs) h)).mono ?_
      rintro clean ts - ⟨us, vs, rfl, hus, hvs⟩ pre hI
      rw [← List.append_assoc]
      exact hvs _ (hus _ hI)

/-- An invariant of one link, which each step extends, holds for the chain. -/
theorem chain {step : α → Parser (Option α)} {I : Bool → List Token → α → Prop}
    (hsome : ∀ {s s' : ParserState} {a a' : α}, s.Sealed → step a s = .ok (some a') s' →
      Got (fun clean ts => ∀ us, I clean us a → I clean (us ++ ts) a') s s')
    (hnone : ∀ {s s' : ParserState} {a : α}, s.Sealed → step a s = .ok none s' → s' = s)
    {a b : α} (hs : s.Sealed) (h : Parser.chain step a s = .ok b s') :
    Got (fun clean ts => ∀ us, I clean us a → I clean (us ++ ts) b) s s' :=
  chainUpTo hsome hnone _ hs h

/-- What one round of collecting has read: the last one the rest of the list, any other one what comes before the
rest. -/
def Round (L : List Token → List α → Prop) (items : List α) (ts : List Token) : Bool → Prop
  | false => L ts items
  | true => ∀ us more, L us more → L (ts ++ us) (items ++ more)

/-- Collecting round by round. -/
theorem collectUpTo {step : Parser (List α × Bool)} {L : Bool → List Token → List α → Prop}
    (hstep : ∀ {s s' : ParserState} {items : List α} {again : Bool}, s.Sealed → step s = .ok (items, again) s' →
      Got (fun clean ts => Round (L clean) items ts again) s s') :
    ∀ (n : Nat) {s s' : ParserState} {items : List α}, s.Sealed →
      Parser.collectUpTo step n s = .ok items s' → Got (fun clean ts => L clean ts items) s s' := by
  intro n
  induction n with
  | zero =>
    intro s s' items _ h
    cases h
  | succ n ih =>
    intro s s' items hs h
    rw [Parser.collectUpTo, Parser.bind_eq_ok] at h
    obtain ⟨⟨first, again⟩, s₁, hround, h⟩ := h
    have h₁ := hstep hs hround
    cases again with
    | false =>
      obtain ⟨rfl, rfl⟩ := Parser.pure_eq_ok.mp h
      exact h₁
    | true =>
      obtain ⟨more, s₂, hrest, h⟩ := Parser.bind_eq_ok.mp h
      obtain ⟨rfl, rfl⟩ := Parser.pure_eq_ok.mp h
      refine (h₁.seq (ih (h₁.sealed hs) hrest)).mono ?_
      rintro clean ts - ⟨us, vs, rfl, hus, hvs⟩
      exact hus vs more hvs

/-- What each round has read makes up what was collected. -/
theorem collect {step : Parser (List α × Bool)} {L : Bool → List Token → List α → Prop}
    (hstep : ∀ {s s' : ParserState} {items : List α} {again : Bool}, s.Sealed → step s = .ok (items, again) s' →
      Got (fun clean ts => Round (L clean) items ts again) s s')
    {items : List α} (hs : s.Sealed) (h : Parser.collect step s = .ok items s') :
    Got (fun clean ts => L clean ts items) s s' :=
  collectUpTo hstep _ hs h

end Got

/-! ## Skipping -/

/-- `Skips step state s ts s'`: from `s` on and starting in `state`, the tokens `ts` are skipped as `step` says. -/
inductive Skips {σ : Type} (step : σ → TokenKind → Skip σ) : σ → ParserState → List Token → ParserState → Prop where
  | ended {state : σ} {s : ParserState} : s.here.kind = .endOfInput → Skips step state s [] s
  | left {state : σ} {s : ParserState} : s.here.kind ≠ .endOfInput → step state s.here.kind = .leave →
      Skips step state s [] s
  | last {state : σ} {s : ParserState} : s.here.kind ≠ .endOfInput → step state s.here.kind = .last →
      Skips step state s [s.here] s.next
  | took {state state' : σ} {s s' : ParserState} {ts : List Token} : s.here.kind ≠ .endOfInput →
      step state s.here.kind = .take state' → Skips step state' s.next ts s' → Skips step state s (s.here :: ts) s'

namespace Skips

variable {σ : Type} {step : σ → TokenKind → Skip σ} {state : σ} {s s' : ParserState} {ts : List Token}

/-- What is skipped is passed. -/
theorem passed (h : Skips step state s ts s') (hs : s.Sealed) : Passed s ts s' := by
  induction h with
  | ended | left => exact Passed.refl _
  | last hk => exact passed_here hs hk
  | took hk _ _ ih =>
    have hnext := passed_here hs hk
    exact hnext.trans (ih (hnext.sealed hs))

/-- What is skipped is determined by where skipping starts. -/
theorem unique {s₁ : ParserState} {us : List Token} (h : Skips step state s ts s') (h' : Skips step state s us s₁) :
    s' = s₁ := by
  induction h generalizing us with
  | ended hk =>
    cases h' with
    | ended => rfl
    | left hk' | last hk' | took hk' => exact absurd hk hk'
  | left hk hstep =>
    cases h' with
    | ended hk' => exact absurd hk' hk
    | left => rfl
    | last _ hstep' | took _ hstep' => exact nomatch hstep.symm.trans hstep'
  | last hk hstep =>
    cases h' with
    | ended hk' => exact absurd hk' hk
    | last => rfl
    | left _ hstep' | took _ hstep' => exact nomatch hstep.symm.trans hstep'
  | took hk hstep _ ih =>
    cases h' with
    | ended hk' => exact absurd hk' hk
    | left _ hstep' | last _ hstep' => exact nomatch hstep.symm.trans hstep'
    | took _ hstep' hrest =>
      cases hstep.symm.trans hstep'
      exact ih hrest

/-- Skipping records nothing and notes nothing. -/
theorem errors_journal (h : Skips step state s ts s') : s'.errors = s.errors ∧ s'.journal = s.journal := by
  induction h with
  | ended | left | last => exact ⟨rfl, rfl⟩
  | took _ _ _ ih => exact ih

end Skips

namespace Parser

variable {σ : Type} {step : σ → TokenKind → Skip σ} {state : σ} {s s' : ParserState} {n : Nat}

/-- Nothing is skipped at the end of the input. -/
theorem skipUpTo_of_end (hk : s.here.kind = .endOfInput) : skipUpTo step (n + 1) state s = .ok () s := by
  rw [skipUpTo, run_atEnd, decide_eq_true hk]
  rfl

/-- One step of skipping, before the end of the input. -/
theorem skipUpTo_of_not_end (hk : s.here.kind ≠ .endOfInput) : skipUpTo step (n + 1) state s =
    match step state s.here.kind with
    | .leave => .ok () s
    | .last => .ok () s.next
    | .take state' => skipUpTo step n state' s.next := by
  rw [skipUpTo, run_atEnd, decide_eq_false hk, if_neg Bool.false_ne_true, run_here]
  cases step state s.here.kind <;> rfl

/-- A bound of more than the tokens ahead is never reached. -/
theorem skips_skipUpTo (step : σ → TokenKind → Skip σ) (n : Nat) : ∀ (state : σ) (s : ParserState), s.Sealed →
    s.ahead.length < n → ∃ ts s', skipUpTo step n state s = .ok () s' ∧ Skips step state s ts s' := by
  induction n with
  | zero => exact fun _ _ _ hn => absurd hn (Nat.not_lt_zero _)
  | succ n ih =>
    intro state s hs hn
    by_cases hk : s.here.kind = .endOfInput
    · exact ⟨[], s, skipUpTo_of_end hk, .ended hk⟩
    rw [skipUpTo_of_not_end hk]
    cases hstep : step state s.here.kind with
    | leave => exact ⟨[], s, rfl, .left hk hstep⟩
    | last => exact ⟨[s.here], s.next, rfl, .last hk hstep⟩
    | take state' =>
      have hnext := passed_here hs hk
      have hlength := hnext.length_ahead
      rw [List.length_singleton] at hlength
      obtain ⟨ts, s', hrest, hskips⟩ := ih state' s.next (hnext.sealed hs) (by omega)
      exact ⟨s.here :: ts, s', hrest, .took hk hstep hskips⟩

/-- Skipping comes to an end. -/
theorem skips_skip (step : σ → TokenKind → Skip σ) (state : σ) (hs : s.Sealed) :
    ∃ ts s', skip step state s = .ok () s' ∧ Skips step state s ts s' :=
  skips_skipUpTo step _ state s hs (Nat.lt_succ_self _)

/-- Skipping that succeeds skips tokens as the step says. -/
theorem skips_of_skip (hs : s.Sealed) {u : Unit} (h : skip step state s = .ok u s') :
    ∃ ts, Skips step state s ts s' := by
  obtain ⟨ts, s₁, hskip, hskips⟩ := skips_skip step state hs
  rw [hskip] at h
  cases h
  exact ⟨ts, hskips⟩

/-- Tokens that are skipped as the step says are what is skipped. -/
theorem skip_of_skips {ts : List Token} (hs : s.Sealed) (h : Skips step state s ts s') :
    skip step state s = .ok () s' := by
  obtain ⟨us, s₁, hskip, hskips⟩ := skips_skip step state hs
  rw [hskip, hskips.unique h]

end Parser

end ContractCompiler
