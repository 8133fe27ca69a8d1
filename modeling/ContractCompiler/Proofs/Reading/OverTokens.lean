import ContractCompiler.Proofs.Reading.Held

/-!
# Reading the tokens of a text

A parser that runs on the tokens of a text stays on them: `ParserState.On tokens s`. What was read on the way lies in the
order of the text, and so does the span of all of it. `Cleanly tokens s s'` is a run on them without errors.
-/

namespace ContractCompiler

/-- The tokens behind and ahead are the given ones, which are those of a text. -/
structure ParserState.On (tokens : List Token) (s : ParserState) : Prop where
  follow : Token.Follow 0 tokens
  tokens_eq : tokens = s.behind.reverse ++ s.here :: s.ahead

/-- A state on a token list is sealed. -/
theorem ParserState.On.sealed {tokens : List Token} {s : ParserState} (hs : s.On tokens) : s.Sealed := by
  intro t ht
  refine hs.follow.getLast t ?_
  rw [hs.tokens_eq, List.getLast?_append, ht, Option.some_or]

/-- It stays on the list when tokens are passed. -/
theorem Passed.on {tokens ts : List Token} {s s' : ParserState} (h : Passed s ts s') (hs : s.On tokens) :
    s'.On tokens := by
  refine ⟨hs.follow, ?_⟩
  rw [hs.tokens_eq, h.tokens, h.behind, List.reverse_append, List.reverse_reverse, List.append_assoc]

/-- The tokens from the cursor on stand in the order of the source. -/
theorem ParserState.On.ascending {tokens : List Token} {s : ParserState} (hs : s.On tokens) :
    Ascending (s.here :: s.ahead) :=
  (hs.tokens_eq ▸ hs.follow.ascending_all).right

/-- A token read on the way ends before the token the way leads to. -/
theorem Passed.stop_le {tokens ts : List Token} {s s' : ParserState} (h : Passed s ts s') (hs : s.On tokens) :
    ∀ t ∈ ts, t.span.stop ≤ s'.here.span.start := by
  intro t ht
  have hpairwise := (h.tokens ▸ hs.ascending).2
  exact (List.pairwise_append.mp hpairwise).2.2 t ht s'.here (by simp)

/-- Reading on never goes back in the text. -/
theorem Passed.start_le {tokens ts : List Token} {s s' : ParserState} (h : Passed s ts s') (hs : s.On tokens) :
    s.here.span.start ≤ s'.here.span.start := by
  cases ts with
  | nil => exact Nat.le_of_eq (by rw [(List.cons.inj h.tokens).1])
  | cons t ts =>
    have hhere := h.head? t rfl
    exact Nat.le_trans (hs.ascending.1 _ List.mem_cons_self) (hhere ▸ h.stop_le hs t List.mem_cons_self)

/-- What was read and what is left end the tokens. -/
theorem Passed.suffix {tokens ts : List Token} {s s' : ParserState} (h : Passed s ts s') (hs : s.On tokens) :
    ts ++ s'.here :: s'.ahead <:+ tokens :=
  ⟨s.behind.reverse, by rw [hs.tokens_eq, h.tokens]⟩

/-- Nothing comes after the end of the input. -/
theorem ParserState.On.ahead_eq_nil {tokens : List Token} {s : ParserState} (hs : s.On tokens)
    (hend : s.here.kind = .endOfInput) : s.ahead = [] :=
  (hs.tokens_eq ▸ hs.follow).eq_nil_of_end hend

/-- At the end of the input there is nothing to read. -/
theorem Passed.at_end {tokens ts : List Token} {s s' : ParserState} (h : Passed s ts s') (hs : s.On tokens)
    (hend : s.here.kind = .endOfInput) : s'.here.kind = .endOfInput := by
  have htokens := h.tokens
  rw [hs.ahead_eq_nil hend] at htokens
  cases ts with
  | nil => rwa [← (List.cons.inj htokens).1]
  | cons t ts => simp at htokens

/-- A span that starts no later than the tokens read ends where the last one of them ends. -/
theorem Passed.spanFrom_stop {tokens ts : List Token} {s s' : ParserState} {start : Nat} (h : Passed s ts s')
    (hs : s.On tokens) (hts : ts ≠ []) (hstart : start ≤ s.here.span.start) :
    ∃ t ∈ ts.getLast?, t.span.stop = (s'.spanFrom start).stop := by
  have hascending : Ascending ts := (h.tokens ▸ hs.ascending).left
  obtain ⟨t, us, rfl⟩ := List.exists_cons_of_ne_nil hts
  obtain ⟨last, hlast⟩ := Option.isSome_iff_exists.mp (List.getLast?_isSome.mpr hts)
  refine ⟨last, hlast, ?_⟩
  have hle := (hascending.le_last List.mem_cons_self hlast).1
  rw [h.head? t rfl] at hle
  rw [h.spanFrom_eq hts, spanTo, hlast]
  simp only [Option.map_some, Option.getD_some]
  omega

/-- The token lies in the span. -/
def Token.Within (t : Token) (span : Span) : Prop := span.start ≤ t.span.start ∧ t.span.stop ≤ span.stop

/-- What was read lies in the span from the first token to the last one. -/
theorem Passed.within {tokens ts : List Token} {s s' : ParserState} (h : Passed s ts s') (hs : s.On tokens) :
    ∀ t ∈ ts, t.Within (s'.spanFrom s.here.span.start) := by
  intro t ht
  have hascending := hs.ascending
  constructor
  · have hmem : t ∈ s.here :: s.ahead := by
      rw [h.tokens]
      exact List.mem_append_left _ ht
    rcases List.mem_cons.mp hmem with rfl | hmem
    · exact Nat.le_refl _
    · exact Nat.le_trans (hascending.1 s.here List.mem_cons_self) (List.rel_of_pairwise_cons hascending.2 hmem)
  · obtain ⟨last, hlast, hstop⟩ := h.spanFrom_stop hs (List.ne_nil_of_mem ht) (Nat.le_refl _)
    rw [← hstop]
    exact ((h.tokens ▸ hascending).left.le_last ht hlast).2

/-- Where no error is recorded at the end none was before. -/
theorem Passed.errors_eq_nil {ts : List Token} {s s' : ParserState} (h : Passed s ts s') (hs' : s'.errors = []) :
    s.errors = [] :=
  List.prefix_nil.mp (hs' ▸ h.errors)

/-- The way between the two states goes over the tokens, and no error was recorded up to its end. -/
structure Cleanly (tokens : List Token) (s s' : ParserState) : Prop where
  on : s.On tokens
  clean : s'.errors = []

theorem Cleanly.middle {tokens ts us vs : List Token} {s s₁ s₂ s' : ParserState} (hts : Passed s ts s₁)
    (_ : Passed s₁ us s₂) (hvs : Passed s₂ vs s') (h : Cleanly tokens s s') : Cleanly tokens s₁ s₂ :=
  ⟨hts.on h.on, hvs.errors_eq_nil h.clean⟩

end ContractCompiler
