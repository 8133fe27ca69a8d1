import ContractCompiler.Proofs.Formatting.Moved
import ContractCompiler.Proofs.Reading.Runs

/-!
# Parsers on moved tokens

A parser that is run on moved tokens gives what it gives on the tokens themselves, moved. The only places a parser compares
are those of a `>` and of a `>` or `>=` after it, so tokens may be moved by any map that keeps their order and joins no such
pair. `Moves p' p` says this of a parser `p`, where `p'` is `p` with the places it was given moved; a parser that was given
none is `Uniform`.
-/

namespace ContractCompiler

/-- The error is at one of the tokens. -/
def ParseError.At (tokens : List Token) (e : ParseError) : Prop := ∃ t ∈ tokens, e.span = t.span

/-- A way to move tokens that keeps their order and joins no two of them that would then spell another operator. -/
structure Reformatting where
  tokens : List Token
  place : Nat → Nat
  mono : ∀ {a b : Nat}, a ≤ b → place a ≤ place b
  tight : ∀ {before after : List Token} {a b : Token}, tokens = before ++ a :: b :: after → a.kind = .mark .gt →
    (b.kind = .mark .gt ∨ b.kind = .mark .ge) → place a.span.stop = place b.span.start → a.span.stop = b.span.start

/-- The result with its places moved. -/
def moveResult {α : Type} [Movable α] (f : Nat → Nat) :
    EStateM.Result ParseError ParserState α → EStateM.Result ParseError ParserState α
  | .ok a s => .ok (move f a) (move f s)
  | .error e s => .error (move f e) (move f s)

namespace Reformatting

/-! ## Places -/

/-- Moving keeps the order, so it keeps the later of two places. -/
theorem place_max (R : Reformatting) (a b : Nat) : R.place (max a b) = max (R.place a) (R.place b) := by
  rcases Nat.le_total a b with h | h
  · rw [Nat.max_eq_right h, Nat.max_eq_right (R.mono h)]
  · rw [Nat.max_eq_left h, Nat.max_eq_left (R.mono h)]

/-- The span from one span through another one is moved with the two. -/
theorem through_move (R : Reformatting) (a b : Span) :
    (move R.place a).through (move R.place b) = move R.place (a.through b) := by
  show Span.mk _ (max _ _) = Span.mk _ (R.place (max _ _))
  rw [R.place_max]
  rfl

/-- The end of the last token that was read is moved with it. -/
theorem lastStop_move (f : Nat → Nat) (c : Cursor) : (move f c).lastStop = f c.lastStop := by
  obtain ⟨behind, here, ahead⟩ := c
  cases behind <;> rfl

/-- The span from a moved place on is the moved span. -/
theorem spanFrom_move (R : Reformatting) (c : Cursor) (start : Nat) :
    (move R.place c).spanFrom (R.place start) = move R.place (c.spanFrom start) := by
  show Span.mk (R.place start) (max _ _) = Span.mk (R.place start) (R.place (max _ _))
  rw [R.place_max, lastStop_move]

/-! ## Cursors -/

/-- Going on over moved tokens is going on over the tokens. -/
theorem advance_move (f : Nat → Nat) (c : Cursor) : (move f c).advance = move f c.advance := by
  obtain ⟨behind, here, ahead⟩ := c
  unfold Cursor.advance
  show (if Cursor.atEnd ⟨behind, here, ahead⟩ = true then _ else _) = _
  split
  · rfl
  · cases ahead <;> rfl

/-- The token a few tokens ahead of a moved cursor is the moved one. -/
theorem tokenAt_move (f : Nat → Nat) (c : Cursor) (n : Nat) : (move f c).tokenAt n = (c.tokenAt n).map (move f) := by
  cases n with
  | zero => rfl
  | succ n => exact List.getElem?_map

/-- Its kind is the same. -/
theorem kindAt_move (f : Nat → Nat) (c : Cursor) (n : Nat) : (move f c).kindAt n = c.kindAt n := by
  unfold Cursor.kindAt
  rw [tokenAt_move, Option.map_map]
  rfl

/-- The token `n` tokens ahead is the `n`-th of those that are left. -/
theorem tokenAt_eq_getElem? (c : Cursor) (n : Nat) : c.tokenAt n = (c.here :: c.ahead)[n]? := by
  cases n <;> rfl

/-- Two tokens after each other part the tokens in front of them from those behind. -/
theorem exists_append_of_tokenAt {c : Cursor} {n : Nat} {a b : Token} (ha : c.tokenAt n = some a)
    (hb : c.tokenAt (n + 1) = some b) : ∃ before after, c.here :: c.ahead = before ++ a :: b :: after := by
  rw [tokenAt_eq_getElem?] at ha hb
  obtain ⟨hn, rfl⟩ := List.getElem?_eq_some_iff.mp ha
  obtain ⟨hn', rfl⟩ := List.getElem?_eq_some_iff.mp hb
  refine ⟨(c.here :: c.ahead).take n, (c.here :: c.ahead).drop (n + 2), ?_⟩
  rw [← List.drop_eq_getElem_cons hn', ← List.drop_eq_getElem_cons hn, List.take_append_drop]

/-- Where a kind is found that is not the end of the input there is a token. -/
theorem exists_tokenAt_of_kindAt {c : Cursor} {n : Nat} (h : c.kindAt n ≠ .endOfInput) :
    ∃ t, c.tokenAt n = some t ∧ t.kind = c.kindAt n := by
  unfold Cursor.kindAt at h ⊢
  cases ht : c.tokenAt n with
  | none => exact absurd (by rw [ht]; rfl) h
  | some t => exact ⟨t, rfl, rfl⟩

/-- A shift depends on the kinds of tokens and on whether a `>` is joined to a `>` or `>=` after it. -/
theorem rightShift?_congr {c c' : Cursor} (hkind : ∀ n, c'.kindAt n = c.kindAt n)
    (hjoined : ∀ n, c.kindAt n = .mark .gt → (c.kindAt (n + 1) = .mark .gt ∨ c.kindAt (n + 1) = .mark .ge) →
      c'.joined n = c.joined n) : c'.rightShift? = c.rightShift? := by
  have hhere : c'.here.kind = c.here.kind := hkind 0
  have hfirst : c.here.kind = .mark .gt → _ := hjoined 0
  have hsecond := hjoined 1
  unfold Cursor.rightShift?
  rw [hhere, hkind, hkind]
  grind

section Shifts

variable {R : Reformatting} {c : Cursor} (hc : c.here :: c.ahead <:+ R.tokens)

include hc

/-- A `>` is joined to a `>` or `>=` after it exactly if it is after moving. -/
theorem joined_move {n : Nat} (hgt : c.kindAt n = .mark .gt)
    (hnext : c.kindAt (n + 1) = .mark .gt ∨ c.kindAt (n + 1) = .mark .ge) :
    (move R.place c).joined n = c.joined n := by
  obtain ⟨a, ha, hakind⟩ := exists_tokenAt_of_kindAt (show c.kindAt n ≠ .endOfInput by rw [hgt]; exact nofun)
  obtain ⟨b, hb, hbkind⟩ := exists_tokenAt_of_kindAt (show c.kindAt (n + 1) ≠ .endOfInput by
    rcases hnext with h | h <;> rw [h] <;> exact nofun)
  obtain ⟨before, after, hsplit⟩ := exists_append_of_tokenAt ha hb
  obtain ⟨front, hfront⟩ := hc
  have htokens : R.tokens = (front ++ before) ++ a :: b :: after := by rw [← hfront, hsplit, List.append_assoc]
  have hiff : R.place a.span.stop = R.place b.span.start ↔ a.span.stop = b.span.start :=
    ⟨R.tight htokens (hakind.trans hgt) (hbkind ▸ hnext), congrArg R.place⟩
  unfold Cursor.joined
  rw [tokenAt_move, tokenAt_move, ha, hb]
  exact decide_eq_decide.mpr hiff

/-- The same right shift is seen at the moved place. -/
theorem rightShift?_move : (move R.place c).rightShift? = c.rightShift? :=
  rightShift?_congr (kindAt_move R.place c) fun _ hgt hnext => joined_move hc hgt hnext

end Shifts

/-! ## Parsers -/

/-- The state stands on the tokens, and its errors are at some of them. -/
structure Fits (R : Reformatting) (s : ParserState) : Prop where
  suffix : s.here :: s.ahead <:+ R.tokens
  errors : ∀ e ∈ s.errors, e.At R.tokens

/-- The state that a result leaves fits, and its error is at one of the tokens. -/
def Settled {α : Type} (R : Reformatting) : EStateM.Result ParseError ParserState α → Prop
  | .ok _ s => R.Fits s
  | .error e s => R.Fits s ∧ e.At R.tokens

/-- Run on moved tokens, `p'` gives what `p` gives, moved. -/
def Moves {α : Type} [Movable α] (R : Reformatting) (p' p : Parser α) : Prop :=
  ∀ s, R.Fits s → p' (move R.place s) = moveResult R.place (p s)

/-- A parser that does not see where tokens stand. -/
class Uniform {α : Type} [Movable α] (R : Reformatting) (p : Parser α) : Prop where
  moves : R.Moves p p

/-- A failure at the cursor is at one of the tokens. -/
theorem Fits.here_at {R : Reformatting} {s : ParserState} (hs : R.Fits s) (fault : ParseFault) :
    ParseError.At R.tokens ⟨fault, s.here.span⟩ :=
  ⟨s.here, hs.suffix.subset List.mem_cons_self, rfl⟩

/-- A state with one more error at a token fits. -/
theorem Fits.record {R : Reformatting} {s : ParserState} (hs : R.Fits s) {e : ParseError} (he : e.At R.tokens) :
    R.Fits { s with errors := s.errors ++ [e] } :=
  ⟨hs.suffix, List.forall_mem_append.mpr ⟨hs.errors, List.forall_mem_singleton.mpr he⟩⟩

/-- Recording an error in a moved state records the moved error. -/
theorem move_record (f : Nat → Nat) (s : ParserState) (e : ParseError) :
    move f { s with errors := s.errors ++ [e] } = { move f s with errors := (move f s).errors ++ [move f e] } :=
  congrArg (ParserState.mk (move f s.toCursor) · s.journal) List.map_append

/-- A state fits after the next token too. -/
theorem Fits.next {R : Reformatting} {s : ParserState} (hs : R.Fits s) : R.Fits s.next := by
  refine ⟨?_, hs.errors⟩
  unfold ParserState.next Cursor.advance
  split
  · exact hs.suffix
  · split
    · exact hs.suffix
    · rename_i t ts h
      have htail : t :: ts <:+ s.here :: s.ahead := by
        rw [h]
        exact List.suffix_cons _ _
      exact htail.trans hs.suffix

/-- Whatever a parser does leaves its state on the tokens, with errors at some of them. -/
theorem Fits.settled {R : Reformatting} {α : Type} (p : Parser α) : ∀ {s : ParserState}, R.Fits s → R.Settled (p s) := by
  induction p with
  | look => exact fun hs => hs
  | note => exact fun hs => ⟨hs.suffix, hs.errors⟩
  | fail fault => exact fun hs => ⟨hs, hs.here_at fault⟩
  | recordMissing what => exact fun hs => hs.record (hs.here_at _)
  | advance => exact fun hs => hs.next
  | bind p f ihp ihf =>
    intro s hs
    have hp := ihp hs
    rw [Parser.run]
    cases h : p s with
    | ok a s₁ =>
      rw [h] at hp
      exact ihf a hp
    | error e s₁ =>
      rw [h] at hp
      exact hp
  | attempt p ih =>
    intro s hs
    have hp := ih hs
    rw [Parser.run]
    cases h : p s with
    | ok a s₁ =>
      rw [h] at hp
      exact hp
    | error e s₁ =>
      rw [h] at hp
      exact hp.1.record hp.2
  | bounded p ih => exact fun hs => ih _ hs

open ContractCompiler.Parser

namespace Moves

variable {R : Reformatting} {α β : Type} [Movable α] [Movable β] {p' p : Parser α} {q' q : α → Parser β}

/-- A moved value is given for a moved value. -/
theorem pure {a' a : α} (h : a' = move R.place a) : R.Moves (pure a') (pure a) := by
  intro s hs
  rw [h]
  rfl

/-- Parsers that move along one after the other do so together. -/
theorem bind (hp : R.Moves p' p) (hq : ∀ a, R.Moves (q' (move R.place a)) (q a)) : R.Moves (p' >>= q') (p >>= q) := by
  intro s hs
  have hrun := hp s hs
  have hsettled := hs.settled p
  cases h : p s with
  | ok a s₁ =>
    rw [h] at hrun hsettled
    rw [bind_of_ok hrun, bind_of_ok h]
    exact hq a s₁ hsettled
  | error e s₁ =>
    rw [h] at hrun
    rw [bind_of_error hrun, bind_of_error h]
    rfl

/-- A parser that was given no place comes first. -/
theorem step [hp : R.Uniform p] (hq : ∀ a, R.Moves (q' (move R.place a)) (q a)) : R.Moves (p >>= q') (p >>= q) :=
  hp.moves.bind hq

/-- So does what is made of what was read, if it is made of the moved thing alike. -/
theorem map (hp : R.Moves p' p) {f' f : α → β} (hf : ∀ a, f' (move R.place a) = move R.place (f a)) :
    R.Moves (f' <$> p') (f <$> p) := by
  rw [map_eq_bind, map_eq_bind]
  exact hp.bind fun a => pure (hf a)

theorem ite {c : Prop} [Decidable c] {r' r : Parser α} (hp : R.Moves p' p) (hr : R.Moves r' r) :
    R.Moves (if c then p' else r') (if c then p else r) := by
  split
  · exact hp
  · exact hr

/-- One of two parsers comes first. -/
theorem either {c : Prop} [Decidable c] {r' r : Parser α} (hp : R.Moves p' p) (hr : R.Moves r' r)
    (hq : ∀ a, R.Moves (q' (move R.place a)) (q a)) :
    R.Moves (if c then p' >>= q' else r' >>= q') (if c then p >>= q else r >>= q) :=
  ite (hp.bind hq) (hr.bind hq)

/-- What comes after something optional. -/
theorem option {p' p : Parser (Option α)} {q' q : Option α → Parser β} (hp : R.Moves p' p)
    (hnone : R.Moves (q' none) (q none)) (hsome : ∀ a, R.Moves (q' (some (move R.place a))) (q (some a))) :
    R.Moves (p' >>= q') (p >>= q) := by
  refine hp.bind fun o => ?_
  cases o with
  | none => exact hnone
  | some a => exact hsome a

/-- What depends on the token at the cursor sees its kind and whether it is after a line break. -/
theorem token {q' q : Token → Parser β}
    (hq : ∀ kind span afterBreak, R.Moves (q' ⟨kind, move R.place span, afterBreak⟩) (q ⟨kind, span, afterBreak⟩)) :
    R.Moves (here >>= q') (here >>= q) :=
  fun s hs => hq s.here.kind s.here.span s.here.afterBreak s hs

/-- What depends on the kind of a token sees the same kind. -/
theorem kind {q' q : TokenKind → Parser β} (n : Nat) (hq : ∀ kind, R.Moves (q' kind) (q kind)) :
    R.Moves (kindAt n >>= q') (kindAt n >>= q) := by
  intro s hs
  rw [run_kindAt, run_kindAt]
  have hkind : (move R.place s).kindAt n = s.kindAt n := kindAt_move R.place s.toCursor n
  rw [hkind]
  exact hq _ s hs

/-- What depends on the whole state is given one that fits. -/
theorem state {q' q : ParserState → Parser β} (hq : ∀ s, R.Fits s → R.Moves (q' (move R.place s)) (q s)) :
    R.Moves (get >>= q') (get >>= q) :=
  fun s hs => hq s hs s hs

/-- What depends on the span of what has been read is given that span moved. -/
theorem span {start' start : Nat} (hstart : start' = R.place start) {q' q : Span → Parser β}
    (hq : ∀ span, R.Moves (q' (move R.place span)) (q span)) : R.Moves (spanFrom start' >>= q') (spanFrom start >>= q) := by
  intro s hs
  have hspan : (move R.place s).spanFrom start' = move R.place (s.spanFrom start) := by
    rw [hstart]
    exact R.spanFrom_move s.toCursor start
  rw [run_spanFrom, run_spanFrom, hspan]
  exact hq _ s hs

/-- A value with the span of what has been read. -/
theorem spanned {start' start : Nat} (hstart : start' = R.place start) {f' f : Span → β}
    (hf : ∀ span, f' (move R.place span) = move R.place (f span)) :
    R.Moves (spanFrom start' >>= fun span => Pure.pure (f' span)) (spanFrom start >>= fun span => Pure.pure (f span)) :=
  span hstart fun span => pure (hf span)

/-- An attempt fails at the moved place, and then records the moved failure. -/
theorem attempt (hp : R.Moves p' p) : R.Moves (attempt p') (attempt p) := by
  intro s hs
  have hrun := hp s hs
  cases h : p s with
  | ok a s₁ =>
    rw [h] at hrun
    rw [attempt_of_ok hrun, attempt_of_ok h]
    rfl
  | error e s₁ =>
    rw [h] at hrun
    rw [attempt_of_error hrun, attempt_of_error h]
    exact congrArg (EStateM.Result.ok none) (move_record R.place s₁ e).symm

/-- As many tokens are ahead after moving as before. -/
theorem bounded {p' p : Nat → Parser α} (hp : ∀ n, R.Moves (p' n) (p n)) : R.Moves (bounded p') (bounded p) := by
  intro s hs
  have hlength : (move R.place s).ahead.length = s.ahead.length := List.length_map _
  rw [run, run, hlength]
  exact hp _ s hs

/-- Repeated reading. -/
theorem collect {step' step : Parser (List α × Bool)} (hstep : R.Moves step' step) :
    R.Moves (collect step') (collect step) := by
  refine bounded fun n => ?_
  induction n with
  | zero => exact fun _ _ => rfl
  | succ n ih =>
    refine hstep.bind fun r => ?_
    obtain ⟨items, more⟩ := r
    refine ite (ih.bind fun rest => pure ?_) (pure rfl)
    exact List.map_append.symm

/-- Extending step by step. -/
theorem chain {step' step : α → Parser (Option α)} (hstep : ∀ a, R.Moves (step' (move R.place a)) (step a)) (a : α) :
    R.Moves (chain step' (move R.place a)) (chain step a) := by
  refine bounded fun n => ?_
  induction n generalizing a with
  | zero => exact fun _ _ => rfl
  | succ n ih => exact (hstep a).option (pure rfl) ih

end Moves

variable {R : Reformatting} {α : Type} [Movable α]

instance uniform_here : R.Uniform here := ⟨fun _ _ => rfl⟩

instance uniform_atEnd : R.Uniform atEnd := ⟨fun _ _ => rfl⟩

instance uniform_check (kind : TokenKind) : R.Uniform (check kind) := ⟨fun _ _ => rfl⟩

instance uniform_note (event : Event) : R.Uniform (note event) := ⟨fun _ _ => rfl⟩

instance uniform_fail (fault : ParseFault) : R.Uniform (fail fault : Parser α) := ⟨fun _ _ => rfl⟩

instance uniform_missing (what : Missing) : R.Uniform (missing what : Parser α) := uniform_fail _

instance uniform_recordMissing (what : Missing) : R.Uniform (recordMissing what) :=
  ⟨fun s _ => congrArg (EStateM.Result.ok ()) (move_record R.place s ⟨.missing what, s.here.span⟩).symm⟩

instance uniform_advance : R.Uniform advance := by
  refine ⟨fun s _ => ?_⟩
  show EStateM.Result.ok () (ParserState.mk (move R.place s.toCursor).advance _ _) = _
  rw [advance_move]
  rfl

/-- A parser that may go on as long, or nest as deep, as there are tokens ahead. -/
theorem uniform_bounded {p : Nat → Parser α} (hp : ∀ n, R.Uniform (p n)) : R.Uniform (bounded p) :=
  ⟨.bounded fun n => (hp n).moves⟩

instance uniform_skipUpTo {σ : Type} (step : σ → TokenKind → Skip σ) (n : Nat) (state : σ) :
    R.Uniform (skipUpTo step n state) := by
  induction n generalizing state with
  | zero => exact uniform_fail _
  | succ n ih =>
    refine ⟨.step fun _ => .ite (.pure rfl) (.token fun kind span afterBreak => ?_)⟩
    dsimp only
    split
    · exact .pure rfl
    · exact uniform_advance.moves
    · exact .step fun _ => (ih _).moves

instance uniform_skip {σ : Type} (step : σ → TokenKind → Skip σ) (state : σ) : R.Uniform (skip step state) :=
  uniform_bounded fun n => uniform_skipUpTo step n state

instance uniform_advanceBy (n : Nat) : R.Uniform (advanceBy n) := by
  induction n with
  | zero => exact ⟨.pure rfl⟩
  | succ n ih => exact ⟨.step fun _ => ih.moves⟩

instance uniform_acceptKind (kind : TokenKind) : R.Uniform (acceptKind kind) :=
  ⟨.step fun _ => .ite (.step fun _ => .pure rfl) (.pure rfl)⟩

instance uniform_accept (mark : Mark) : R.Uniform (accept mark) := uniform_acceptKind _

instance uniform_acceptWord (word : Keyword) : R.Uniform (acceptWord word) := uniform_acceptKind _

instance uniform_expect (mark : Mark) (what : Missing) : R.Uniform (expect mark what) :=
  ⟨.step fun _ => .ite (.pure rfl) Uniform.moves⟩

instance uniform_expectWord (word : Keyword) (what : Missing) : R.Uniform (expectWord word what) :=
  ⟨.step fun _ => .ite (.pure rfl) Uniform.moves⟩

instance uniform_identBy (name? : TokenKind → Option String) (what : Missing) : R.Uniform (identBy name? what) := by
  refine ⟨.token fun kind span afterBreak => ?_⟩
  dsimp only
  split
  · exact .step fun _ => .pure rfl
  · exact Uniform.moves

instance uniform_bindingIdent (what : Missing) : R.Uniform (bindingIdent what) := uniform_identBy _ _

instance uniform_declaredIdent (what : Missing) : R.Uniform (declaredIdent what) := uniform_identBy _ _

instance uniform_discard (p : Parser α) [hp : R.Uniform p] : R.Uniform (discard p) := ⟨hp.moves.map fun _ => rfl⟩

instance uniform_after (mark : Mark) (p : Parser α) [R.Uniform p] : R.Uniform (after mark p) :=
  ⟨.step fun _ => .ite (.step fun _ => .pure rfl) (.pure rfl)⟩

instance uniform_attempt (p : Parser α) [hp : R.Uniform p] : R.Uniform (attempt p) := ⟨hp.moves.attempt⟩

instance uniform_skipAngles : R.Uniform skipAngles := ⟨.step fun _ => .ite Uniform.moves (.pure rfl)⟩

instance uniform_listUpTo (close : Mark) (separator : Missing) (item : Parser α) [R.Uniform item] :
    R.Uniform (listUpTo close separator item) := by
  refine ⟨.collect (.step fun _ => .ite (.pure rfl) (.step fun a => .step fun _ => .ite (.pure rfl) ?_))⟩
  exact .step fun _ => .pure rfl

instance uniform_someUpTo (close : Mark) (separator : Missing) (item : Parser α) [R.Uniform item] :
    R.Uniform (someUpTo close separator item) :=
  ⟨.collect (.step fun _ => .step fun _ => .ite (.pure rfl) (.step fun _ => .pure rfl))⟩

/-- A dotted name is read alike after its moved first part. -/
theorem moves_dottedFrom (first : Ident) (what : Missing) :
    R.Moves (dottedFrom (move R.place first) what) (dottedFrom first what) := by
  have hmore : R.Moves (do if ← accept .dot then return ([← declaredIdent what], true) else return ([], false))
      (do if ← accept .dot then return ([← declaredIdent what], true) else return ([], false)) :=
    .step fun _ => .ite (.step fun _ => .pure rfl) (.pure rfl)
  exact hmore.collect.bind fun more => .pure rfl

end Reformatting

end ContractCompiler
