import ContractCompiler.Reading.Parser

/-!
# What a parser passes over

Every parser leaves its state further along the same tokens: `Passed s ts s'` says that exactly the tokens `ts` lie
between `s` and `s'`. This is so because of the steps a parser can take (`Parser.passed`), whether it succeeds or fails.
-/

namespace ContractCompiler

namespace Cursor

/-- The number of tokens behind the cursor. -/
def position (c : Cursor) : Nat := c.behind.length

/-- All tokens, behind the cursor and ahead of it. -/
def tokens (c : Cursor) : List Token := c.behind.reverse ++ c.here :: c.ahead

/-- A step stays at the end of the input, and otherwise goes over one token. -/
theorem advance_cases (c : Cursor) :
    (c.advance = c ∧ (c.atEnd = true ∨ c.ahead = [])) ∨
      ∃ t ts, c.ahead = t :: ts ∧ c.atEnd = false ∧ c.advance = ⟨c.here :: c.behind, t, ts⟩ := by
  unfold advance
  cases hend : c.atEnd with
  | true => exact .inl ⟨rfl, .inl rfl⟩
  | false =>
    cases hahead : c.ahead with
    | nil => exact .inl ⟨rfl, .inr rfl⟩
    | cons t ts => exact .inr ⟨t, ts, rfl, rfl, rfl⟩

/-- A step keeps the tokens. -/
theorem tokens_advance (c : Cursor) : c.advance.tokens = c.tokens := by
  rcases c.advance_cases with ⟨h, -⟩ | ⟨t, ts, hahead, -, h⟩
  · rw [h]
  · rw [h]
    simp [tokens, hahead]

/-- It moves on by one place at most. -/
theorem position_advance (c : Cursor) : c.advance.position = c.position ∨ c.advance.position = c.position + 1 := by
  rcases c.advance_cases with ⟨h, -⟩ | ⟨t, ts, -, -, h⟩
  · exact .inl (by rw [h])
  · exact .inr (by rw [h]; rfl)

/-- Every token is behind the cursor, at it or ahead of it. -/
theorem length_tokens (c : Cursor) : c.tokens.length = c.position + c.ahead.length + 1 := by
  simp only [tokens, position, List.length_append, List.length_reverse, List.length_cons]
  omega

end Cursor

/-- The state after moving over one token. -/
def ParserState.next (s : ParserState) : ParserState := { s with toCursor := s.toCursor.advance }

/-- The tokens end with the end of the input. -/
def ParserState.Sealed (s : ParserState) : Prop :=
  ∀ t, (s.here :: s.ahead).getLast? = some t → t.kind = .endOfInput

/-- `s'` is the state after `s` has moved over the tokens `ts`. Errors recorded before are kept. -/
structure Passed (s : ParserState) (ts : List Token) (s' : ParserState) : Prop where
  behind : s'.behind = ts.reverse ++ s.behind
  tokens : s.here :: s.ahead = ts ++ s'.here :: s'.ahead
  errors : s.errors <+: s'.errors

namespace Passed

variable {s s₁ s' : ParserState} {ts us : List Token}

/-- Over no tokens the state stays the same. -/
theorem refl (s : ParserState) : Passed s [] s := ⟨rfl, rfl, List.prefix_refl _⟩

/-- Passages one after the other make up a passage. -/
theorem trans (h : Passed s ts s₁) (h' : Passed s₁ us s') : Passed s (ts ++ us) s' := by
  refine ⟨?_, ?_, h.errors.trans h'.errors⟩
  · rw [h'.behind, h.behind, List.reverse_append, List.append_assoc]
  · rw [h.tokens, h'.tokens, List.append_assoc]

/-- A passage keeps the end of the input at the end. -/
theorem sealed (h : Passed s ts s') (hs : s.Sealed) : s'.Sealed := by
  intro t ht
  apply hs t
  rw [h.tokens, List.getLast?_append, ht, Option.some_or]

/-- Moving over a token leaves fewer tokens ahead. -/
theorem length_ahead (h : Passed s ts s') : s.ahead.length = ts.length + s'.ahead.length := by
  have := congrArg List.length h.tokens
  simp only [List.length_cons, List.length_append] at this
  omega

/-- If no error was recorded along the whole way, none was along its parts. -/
theorem clean (h : Passed s ts s₁) (h' : Passed s₁ us s') (he : s'.errors = s.errors) :
    s₁.errors = s.errors ∧ s'.errors = s₁.errors := by
  have h₁ : s₁.errors = s.errors := by
    refine (h.errors.eq_of_length ?_).symm
    exact Nat.le_antisymm h.errors.length_le (he ▸ h'.errors.length_le)
  exact ⟨h₁, he.trans h₁.symm⟩

end Passed

/-- Moving over one token. At the end of the input the state stays where it is. -/
theorem passed_next (s : ParserState) : ∃ ts, Passed s ts s.next := by
  unfold ParserState.next Cursor.advance
  split
  · exact ⟨[], Passed.refl s⟩
  · split
    · exact ⟨[], Passed.refl s⟩
    · rename_i h
      exact ⟨[s.here], rfl, by simp [h], List.prefix_refl _⟩

/-- Before the end of the input, moving over one token moves over the token at the cursor. -/
theorem passed_here {s : ParserState} (hs : s.Sealed) (hk : s.here.kind ≠ .endOfInput) :
    Passed s [s.here] s.next := by
  unfold ParserState.next Cursor.advance Cursor.atEnd
  rw [if_neg (by simpa using hk)]
  split
  · rename_i h
    exact absurd (hs s.here (by simp [h])) hk
  · rename_i h
    exact ⟨rfl, by simp [h], List.prefix_refl _⟩

/-! ## Parsers only move forward -/

/-- The state a parser leaves, whether it succeeded or failed. -/
def stateOf {α : Type} : EStateM.Result ParseError ParserState α → ParserState
  | .ok _ s => s
  | .error _ s => s

namespace Parser

variable {α β : Type}

/-- After a parser that succeeds the next one goes on. -/
theorem bind_of_ok {p : Parser α} {f : α → Parser β} {s s' : ParserState} {a : α} (h : p s = .ok a s') :
    (p >>= f) s = f a s' := by
  show (Parser.bind p f).run s = f a s'
  rw [run, h]

/-- After a parser that fails the next one is not run. -/
theorem bind_of_error {p : Parser α} {f : α → Parser β} {s s' : ParserState} {e : ParseError}
    (h : p s = .error e s') : (p >>= f) s = .error e s' := by
  show (Parser.bind p f).run s = .error e s'
  rw [run, h]

/-- An attempt that succeeds has the value. -/
theorem attempt_of_ok {p : Parser α} {s s' : ParserState} {a : α} (h : p s = .ok a s') :
    attempt p s = .ok (some a) s' := by
  rw [run, h]

/-- An attempt that fails has none, and records the error. -/
theorem attempt_of_error {p : Parser α} {s s' : ParserState} {e : ParseError} (h : p s = .error e s') :
    attempt p s = .ok none { s' with errors := s'.errors ++ [e] } := by
  rw [run, h]

/-- Mapping a value is a step that returns it. -/
theorem map_eq_bind (f : α → β) (p : Parser α) : f <$> p = p >>= fun a => pure (f a) := rfl

/-- A parser never moves back and forgets no error. -/
theorem passed (p : Parser α) : ∀ s, ∃ ts, Passed s ts (stateOf (p s)) := by
  induction p with
  | look | fail | note => exact fun s => ⟨[], rfl, rfl, List.prefix_refl _⟩
  | recordMissing what => exact fun s => ⟨[], rfl, rfl, List.prefix_append s.errors _⟩
  | advance => exact passed_next
  | bind p f ihp ihf =>
    intro s
    obtain ⟨ts, hts⟩ := ihp s
    cases h : p s with
    | ok a s₁ =>
      rw [h] at hts
      obtain ⟨us, hus⟩ := ihf a s₁
      rw [run, h]
      exact ⟨ts ++ us, hts.trans hus⟩
    | error e s₁ =>
      rw [h] at hts
      rw [run, h]
      exact ⟨ts, hts⟩
  | attempt p ih =>
    intro s
    obtain ⟨ts, hts⟩ := ih s
    cases h : p s with
    | ok a s₁ =>
      rw [h] at hts
      rw [attempt_of_ok h]
      exact ⟨ts, hts⟩
    | error e s₁ =>
      rw [h] at hts
      rw [attempt_of_error h]
      exact ⟨ts, hts.behind, hts.tokens, hts.errors.trans (List.prefix_append _ _)⟩
  | bounded p ih => exact fun s => ih _ s

/-- A parser that succeeds has passed tokens. -/
theorem passed_of_ok {p : Parser α} {s s' : ParserState} {a : α} (h : p s = .ok a s') : ∃ ts, Passed s ts s' := by
  have := p.passed s
  rwa [h] at this

theorem passed_of_error {p : Parser α} {s s' : ParserState} {e : ParseError} (h : p s = .error e s') :
    ∃ ts, Passed s ts s' := by
  have := p.passed s
  rwa [h] at this

end Parser

end ContractCompiler
