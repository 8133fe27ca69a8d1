import ContractCompiler.Proofs.Printing.RoundTrip
import ContractCompiler.Reading.Items

/-!
# Parsers that retrace a text

`Retraces n p ks s' P` says that `p`, started where tokens of the kinds `ks` lead up to the state `s'`, moves over exactly these
tokens and gives a value of which `P` holds. There is a rule for each step of a parser, so that a text is read back by going
through its kinds along with the parser. The tokens ahead are fewer than `n`, which bounds how deep things are nested.
-/

namespace ContractCompiler

open ContractCompiler.Parser

/-- From any state before tokens of the kinds `ks`, with fewer than `n` tokens ahead, `p` goes to `s'` and gives a value of which
`P` holds. -/
def Retraces {α : Type} (n : Nat) (p : Parser α) (ks : List TokenKind) (s' : ParserState) (P : α → Prop) : Prop :=
  ∀ s, Spelled s ks s' → s.ahead.length < n → ∃ a, p s = .ok a s' ∧ P a

/-- The kind of the token at which a text up to `s'` starts. -/
def TokenKind.first (ks : List TokenKind) (s' : ParserState) : TokenKind := ks.headD s'.here.kind

/-- The first token of a text that has one. -/
theorem TokenKind.first_of_head? {ks : List TokenKind} {k : TokenKind} (h : ks.head? = some k) (s' : ParserState) :
    first ks s' = k := by
  rw [first, List.headD_eq_head?_getD, h]
  rfl

/-- A text after a mark, if there is one. -/
def TokenKind.clause (mark : Mark) : Option (List TokenKind) → List TokenKind
  | none => []
  | some ks => .mark mark :: ks

/-- Between a state and itself nothing is spelled. -/
theorem Spelled.refl (s : ParserState) : Spelled s [] s := ⟨[], ⟨rfl, rfl, rfl, rfl⟩, rfl, by simp, .nil⟩

/-- The cursor is at the first token of what is spelled. -/
theorem Spelled.here_eq_first {s s' : ParserState} {ks : List TokenKind} (h : Spelled s ks s') :
    s.here.kind = TokenKind.first ks s' := by
  cases ks with
  | nil => rw [h.eq_of_nil]; rfl
  | cons k ks => exact h.here

namespace Retraces

variable {α β : Type} {n : Nat} {s' : ParserState} {p : Parser α} {q : α → Parser β} {k : TokenKind} {ks ls : List TokenKind}
  {P : α → Prop} {Q : β → Prop}

/-- What is retraced with some tokens ahead is retraced with fewer. -/
theorem fewer {m : Nat} (h : Retraces n p ks s' P) (hmn : m ≤ n) : Retraces m p ks s' P :=
  fun s hs hm => h s hs (Nat.lt_of_lt_of_le hm hmn)

/-- A value takes no tokens. -/
theorem pure {a : α} (h : P a) : Retraces n (pure a) [] s' P := by
  intro s hs _
  rw [hs.eq_of_nil]
  exact ⟨a, rfl, h⟩

/-- One text after the other. -/
theorem bind (hp : ∀ s₁ : ParserState, s₁.here.kind = TokenKind.first ls s' → Retraces n p ks s₁ P)
    (hq : ∀ a, P a → Retraces n (q a) ls s' Q) : Retraces n (p >>= q) (ks ++ ls) s' Q := by
  intro s hs hn
  obtain ⟨s₁, hks, hls⟩ := hs.split ks
  have hlength := hks.length_ahead
  obtain ⟨a, ha, hPa⟩ := hp s₁ hls.here_eq_first s hks hn
  obtain ⟨b, hb, hQb⟩ := hq a hPa s₁ hls (by omega)
  exact ⟨b, by rw [bind_of_ok ha, hb], hQb⟩

/-- A text before a token of a known kind. -/
theorem before (hp : ∀ s₁ : ParserState, s₁.here.kind = k → Retraces n p ks s₁ P)
    (hq : ∀ a, P a → Retraces n (q a) (k :: ls) s' Q) : Retraces n (p >>= q) (ks ++ k :: ls) s' Q := bind hp hq

/-- The last text. -/
theorem last (hp : Retraces n p ks s' P) (hq : ∀ a, P a → Retraces n (q a) [] s' Q) : Retraces n (p >>= q) ks s' Q := by
  intro s hs hn
  have hlength := hs.length_ahead
  obtain ⟨a, ha, hPa⟩ := hp s hs hn
  obtain ⟨b, hb, hQb⟩ := hq a hPa s' (.refl s') (by omega)
  exact ⟨b, by rw [bind_of_ok ha, hb], hQb⟩

/-- A span is taken without moving. -/
theorem spanFrom {q : Span → Parser β} {start : Nat} (h : ∀ span, Retraces n (q span) ks s' Q) :
    Retraces n (spanFrom start >>= q) ks s' Q := fun s hs hn => h (s.spanFrom start) s hs hn

/-- The token at the cursor is the first one that is spelled. -/
theorem here {q : Token → Parser β} (h : ∀ token, token.kind = TokenKind.first ks s' → Retraces n (q token) ks s' Q) :
    Retraces n (here >>= q) ks s' Q := fun s hs hn => h s.here hs.here_eq_first s hs hn

/-- The kind of a token ahead is that of the one spelled there. -/
theorem kindAt {q : TokenKind → Parser β} {i : Nat} (hk : ks[i]? = some k) (h : Retraces n (q k) ks s' Q) :
    Retraces n (kindAt i >>= q) ks s' Q := by
  intro s hs hn
  rw [run_kindAt, hs.kindAt hk]
  exact h s hs hn

/-- Behind a token there is one token less ahead. -/
theorem advance_succ {q : Unit → Parser β} (hk : k ≠ .endOfInput) (h : Retraces n (q ()) ks s' Q) :
    Retraces (n + 1) (advance >>= q) (k :: ks) s' Q := by
  intro s hs hn
  have hlt := hs.next_lt hk
  exact h s.next (hs.next hk) (by omega)

/-- The token at the cursor is taken. -/
theorem advance {q : Unit → Parser β} (hk : k ≠ .endOfInput) (h : Retraces n (q ()) ks s' Q) :
    Retraces n (Parser.advance >>= q) (k :: ks) s' Q := (advance_succ hk h).fewer (Nat.le_succ n)

/-! ### Tokens that are asked for -/

/-- A token that is looked for is found, and stays. -/
theorem checkThen {q r : Parser β} (h : Retraces n q (k :: ks) s' Q) :
    Retraces n (check k >>= fun found => if found = true then q else r) (k :: ks) s' Q := by
  intro s hs hn
  rw [run_check, decide_eq_true hs.here, if_pos rfl]
  exact h s hs hn

/-- A token that is looked for is not there. -/
theorem checkElse {q r : Parser β} (hk : TokenKind.first ks s' ≠ k) (h : Retraces n r ks s' Q) :
    Retraces n (check k >>= fun found => if found = true then q else r) ks s' Q := by
  intro s hs hn
  rw [run_check, decide_eq_false (by rwa [hs.here_eq_first]), if_neg Bool.false_ne_true]
  exact h s hs hn

/-- A token that is looked for is found and taken, which leaves one token less. -/
theorem accept_succ {q : Bool → Parser β} (hk : k ≠ .endOfInput) (h : Retraces n (q true) ks s' Q) :
    Retraces (n + 1) (acceptKind k >>= q) (k :: ks) s' Q := by
  intro s hs hn
  rw [run_acceptKind, if_pos hs.here]
  exact advance_succ (q := fun _ => q true) hk h s hs hn

theorem accept {q : Bool → Parser β} (hk : k ≠ .endOfInput) (h : Retraces n (q true) ks s' Q) :
    Retraces n (acceptKind k >>= q) (k :: ks) s' Q := (accept_succ hk h).fewer (Nat.le_succ n)

/-- A token that is looked for is not there, and nothing is taken. -/
theorem refuse {q : Bool → Parser β} (hk : TokenKind.first ks s' ≠ k) (h : Retraces n (q false) ks s' Q) :
    Retraces n (acceptKind k >>= q) ks s' Q := by
  intro s hs hn
  rw [run_acceptKind, if_neg (by rwa [hs.here_eq_first])]
  exact h s hs hn

/-- The branch for a token that is found and taken. -/
theorem acceptThen_succ {q r : Parser β} (hk : k ≠ .endOfInput) (h : Retraces n q ks s' Q) :
    Retraces (n + 1) (acceptKind k >>= fun found => if found = true then q else r) (k :: ks) s' Q := by
  refine accept_succ hk ?_
  rwa [if_pos rfl]

theorem acceptThen {q r : Parser β} (hk : k ≠ .endOfInput) (h : Retraces n q ks s' Q) :
    Retraces n (acceptKind k >>= fun found => if found = true then q else r) (k :: ks) s' Q :=
  (acceptThen_succ hk h).fewer (Nat.le_succ n)

/-- The branch for a token that is not there. -/
theorem acceptElse {q r : Parser β} (hk : TokenKind.first ks s' ≠ k) (h : Retraces n r ks s' Q) :
    Retraces n (acceptKind k >>= fun found => if found = true then q else r) ks s' Q := by
  refine refuse hk ?_
  rwa [if_neg Bool.false_ne_true]

/-- An expected mark is there and taken, which leaves one token less. -/
theorem expect_succ {q : Unit → Parser β} {mark : Mark} {what : Missing} (h : Retraces n (q ()) ks s' Q) :
    Retraces (n + 1) (expect mark what >>= q) (.mark mark :: ks) s' Q := by
  intro s hs hn
  rw [bind_of_ok (expect_of_mark what hs.here)]
  exact advance_succ (k := .mark mark) (by simp) h s hs hn

theorem expect {q : Unit → Parser β} {mark : Mark} {what : Missing} (h : Retraces n (q ()) ks s' Q) :
    Retraces n (Parser.expect mark what >>= q) (.mark mark :: ks) s' Q := (expect_succ h).fewer (Nat.le_succ n)

/-- An expected word is there and taken. -/
theorem expectWord {q : Unit → Parser β} {word : Keyword} {what : Missing} (h : Retraces n (q ()) ks s' Q) :
    Retraces n (expectWord word what >>= q) (.keyword word :: ks) s' Q := by
  intro s hs hn
  have hword : Parser.expectWord word what s = .ok () s.next := by
    rw [Parser.expectWord, acceptWord, run_acceptKind, if_pos hs.here]
    rfl
  rw [bind_of_ok hword]
  exact advance (k := .keyword word) (by simp) h s hs hn

/-- A token that may stand here and does. -/
theorem discard {q : Unit → Parser β} (hk : k ≠ .endOfInput) (h : Retraces n (q ()) ks s' Q) :
    Retraces n (discard (acceptKind k) >>= q) (k :: ks) s' Q := by
  intro s hs hn
  have hfound : Functor.discard (acceptKind k) s = .ok () s.next :=
    map_eq_ok.mpr ⟨true, acceptKind_eq_ok.mpr (.inl ⟨hs.here, rfl, rfl⟩), rfl⟩
  rw [bind_of_ok hfound]
  exact advance hk h s hs hn

/-- A token that may stand here and does not. -/
theorem without {q : Unit → Parser β} (hk : TokenKind.first ks s' ≠ k) (h : Retraces n (q ()) ks s' Q) :
    Retraces n (Functor.discard (acceptKind k) >>= q) ks s' Q := by
  intro s hs hn
  have hmissing : Functor.discard (acceptKind k) s = .ok () s :=
    map_eq_ok.mpr ⟨false, acceptKind_eq_ok.mpr (.inr ⟨hs.here_eq_first ▸ hk, rfl, rfl⟩), rfl⟩
  rw [bind_of_ok hmissing]
  exact h s hs hn

/-- A name is there and taken. -/
theorem identBy {q : Ident → Parser β} {name? : TokenKind → Option String} {what : Missing} {name : String}
    (hname : name? k = some name) (hk : k ≠ .endOfInput) (h : ∀ i, i.name = name → Retraces n (q i) ks s' Q) :
    Retraces n (identBy name? what >>= q) (k :: ks) s' Q := by
  intro s hs hn
  have hident : Parser.identBy name? what s = .ok ⟨name, s.here.span⟩ s.next :=
    identBy_eq_ok.mpr ⟨name, by rw [hs.here, hname], rfl, rfl⟩
  rw [bind_of_ok hident]
  exact advance (q := fun _ => q ⟨name, s.here.span⟩) hk (h _ rfl) s hs hn

/-- A semicolon ends a statement. -/
theorem terminator {q : Unit → Parser β} (h : Retraces n (q ()) ks s' Q) :
    Retraces n (terminator >>= q) (.mark .semicolon :: ks) s' Q := by
  intro s hs hn
  have hmark : Parser.terminator s = .ok () s.next := by
    rw [Parser.terminator, Parser.accept, run_acceptKind, if_pos hs.here]
    rfl
  rw [bind_of_ok hmark]
  exact advance (k := .mark .semicolon) (by simp) h s hs hn

/-- Before a token there is more to read. -/
theorem notAtEnd {q r : Parser β} (hk : TokenKind.first ks s' ≠ .endOfInput) (h : Retraces n r ks s' Q) :
    Retraces n (atEnd >>= fun ended => if ended = true then q else r) ks s' Q := checkElse hk h

/-- What is read without a failure is read when tried. -/
theorem attempt (hp : Retraces n p ks s' P) : Retraces n (attempt p) ks s' fun o => ∃ a, o = some a ∧ P a := by
  intro s hs hn
  obtain ⟨a, ha, hPa⟩ := hp s hs hn
  exact ⟨some a, attempt_of_ok ha, a, rfl, hPa⟩

/-- The token after the one that is moved over stands on the same line. -/
theorem advanceOnLine {q : Token → Parser β} {l : TokenKind} (hk : k ≠ .endOfInput)
    (h : ∀ token : Token, token.kind = l → token.afterBreak = false → Retraces n (q token) (l :: ks) s' Q) :
    Retraces n (Parser.advance >>= fun _ => Parser.here >>= q) (k :: l :: ks) s' Q := by
  intro s hs hn
  obtain ⟨s₁, hs₁, hs', hline⟩ := hs.split_line [k] (by simp)
  have hlt := hs.next_lt hk
  rw [hs₁.eq_next hk] at hs' hline
  exact h s.next.here hs'.here hline s.next hs' (by omega)

/-! ### Parts that may be left out -/

variable {γ : Type} {erase : α → γ} {o : Option α} {write : α → List TokenKind}

/-- A clause that starts with a mark. -/
theorem clause {mark : Mark} (hp : ∀ a, o = some a → Retraces n p (write a) s' fun b => erase b = erase a)
    (hnone : o = none → s'.here.kind ≠ .mark mark) :
    Retraces n (after mark p) (TokenKind.clause mark (o.map write)) s' fun o' => o'.map erase = o.map erase := by
  cases o with
  | none => exact acceptElse (hnone rfl) (pure rfl)
  | some a =>
    exact acceptThen (by simp) (last (hp a rfl) fun b hb => pure (by rw [Option.map_some, Option.map_some, hb]))

/-- What is optional is there. -/
theorem mapSome {q : Option α → Parser β} (h : Retraces n (p >>= fun a => q (some a)) ks s' Q) :
    Retraces n (some <$> p >>= q) ks s' Q := by
  intro s hs hn
  obtain ⟨b, hrun, hb⟩ := h s hs hn
  obtain ⟨a, s₁, ha, hq⟩ := bind_eq_ok.mp hrun
  exact ⟨b, bind_eq_ok.mpr ⟨some a, s₁, map_eq_ok.mpr ⟨a, ha, rfl⟩, hq⟩, hb⟩

/-- A value that is given without reading. -/
theorem pureBind {a : α} {q : α → Parser β} (h : Retraces n (q a) ks s' Q) : Retraces n (Pure.pure a >>= q) ks s' Q := h

/-- Something that is left out where the token of the kind `k`, which ends it, stands already. -/
theorem unlessAt {q : Option α → Parser β}
    (hopen : ∀ a, o = some a → ∃ l, (write a).head? = some l ∧ l ≠ k)
    (hp : ∀ a, o = some a → ∀ s₁ : ParserState, s₁.here.kind = k → Retraces n p (write a) s₁ fun b => erase b = erase a)
    (hq : ∀ o', o'.map erase = o.map erase → Retraces n (q o') (k :: ks) s' Q) :
    Retraces n (check k >>= fun found => if found = true then Pure.pure none >>= q else some <$> p >>= q)
      (o.toList.flatMap write ++ k :: ks) s' Q := by
  cases o with
  | none => exact checkThen (pureBind (hq none rfl))
  | some a =>
    obtain ⟨l, hl, hne⟩ := hopen a rfl
    rw [Option.toList_some, List.flatMap_singleton]
    refine checkElse ?_ (mapSome (before (hp a rfl) fun b hb => hq (some b) (by rw [Option.map_some, Option.map_some, hb])))
    rwa [TokenKind.first_of_head? (k := l) (by rw [List.head?_append, hl, Option.some_or])]

/-! ### Repetition -/

/-- Rounds that read one item each, and a last one that reads none. `good` says before which tokens an item may end. -/
theorem collect {step : Parser (List α × Bool)} {as : List α} (good : TokenKind → Prop)
    (hopen : ∀ a ∈ as, ∃ k, (write a).head? = some k ∧ good k) (hgood : good (TokenKind.first ls s'))
    (hitem : ∀ a ∈ as, ∀ s₁ : ParserState, good s₁.here.kind →
      Retraces n step (write a) s₁ fun r => ∃ b, r = ([b], true) ∧ erase b = erase a)
    (hend : Retraces n step ls s' fun r => r = ([], false)) :
    Retraces n (collect step) (as.flatMap write ++ ls) s' fun bs => bs.map erase = as.map erase := by
  suffices hrounds : ∀ m s, Spelled s (as.flatMap write ++ ls) s' → s.ahead.length < n → s.ahead.length < m →
      ∃ bs, collectUpTo step m s = .ok bs s' ∧ bs.map erase = as.map erase from
    fun s hs hn => hrounds _ s hs hn (Nat.lt_succ_self _)
  induction as with
  | nil =>
    intro m s hs hn hm
    obtain ⟨m, rfl⟩ := Nat.exists_eq_add_one_of_ne_zero (Nat.ne_zero_of_lt hm)
    obtain ⟨r, hr, rfl⟩ := hend s hs hn
    exact ⟨[], by rw [collectUpTo, bind_of_ok hr]; rfl, rfl⟩
  | cons a as ih =>
    intro m s hs hn hm
    obtain ⟨m, rfl⟩ := Nat.exists_eq_add_one_of_ne_zero (Nat.ne_zero_of_lt hm)
    rw [List.flatMap_cons, List.append_assoc] at hs
    obtain ⟨s₁, hs₁, hs'⟩ := hs.split (write a)
    obtain ⟨k, hk, -⟩ := hopen a List.mem_cons_self
    have hlength := hs₁.length_ahead
    have hpos : 0 < (write a).length := List.length_pos_of_ne_nil fun hnil => by simp [hnil] at hk
    have hgood₁ : good s₁.here.kind := by
      cases as with
      | nil => rwa [hs'.here_eq_first]
      | cons a' as =>
        obtain ⟨k', hk', hgood'⟩ := hopen a' (by simp)
        rwa [hs'.here_of_head? (k := k') (by simp [hk'])]
    obtain ⟨r, hr, b, rfl, hb⟩ := hitem a List.mem_cons_self s₁ hgood₁ s hs₁ hn
    obtain ⟨bs, hbs, heq⟩ := ih (fun x hx => hopen x (List.mem_cons_of_mem _ hx))
      (fun x hx => hitem x (List.mem_cons_of_mem _ hx)) m s₁ hs' (by omega) (by omega)
    refine ⟨b :: bs, ?_, by rw [List.map_cons, hb, heq, List.map_cons]⟩
    rw [collectUpTo, bind_of_ok hr]
    dsimp only
    rw [if_pos rfl, bind_of_ok hbs]
    rfl

/-- Rounds that read one item each and go on after a comma. -/
theorem separated {step : Parser (List α × Bool)} {as : List α} (hne : as ≠ [])
    (hlast : ∀ a ∈ as, Retraces n step (write a ++ ls) s' fun r => ∃ b, r = ([b], false) ∧ erase b = erase a)
    (hmore : ∀ a ∈ as, ∀ s₁, Retraces n step (write a ++ [TokenKind.mark .comma]) s₁ fun r => ∃ b, r = ([b], true) ∧ erase b = erase a) :
    Retraces n (Parser.collect step) (TokenKind.commas (as.map write) ++ ls) s' fun bs => bs.map erase = as.map erase := by
  suffices hrounds : ∀ m s, Spelled s (TokenKind.commas (as.map write) ++ ls) s' → s.ahead.length < n → s.ahead.length < m →
      ∃ bs, collectUpTo step m s = .ok bs s' ∧ bs.map erase = as.map erase from
    fun s hs hn => hrounds _ s hs hn (Nat.lt_succ_self _)
  induction as with
  | nil => exact absurd rfl hne
  | cons a as ih =>
    intro m s hs hn hm
    obtain ⟨m, rfl⟩ := Nat.exists_eq_add_one_of_ne_zero (Nat.ne_zero_of_lt hm)
    cases as with
    | nil =>
      obtain ⟨r, hr, b, rfl, hb⟩ := hlast a List.mem_cons_self s hs hn
      exact ⟨[b], by rw [collectUpTo, bind_of_ok hr]; rfl, by rw [List.map_cons, hb]; rfl⟩
    | cons a' as =>
      have hs : Spelled s ((write a ++ [TokenKind.mark .comma]) ++ (TokenKind.commas ((a' :: as).map write) ++ ls)) s' := by
        simpa [TokenKind.commas] using hs
      obtain ⟨s₁, hs₁, hs'⟩ := hs.split _
      have hlength := hs₁.length_ahead
      simp only [List.length_append, List.length_cons] at hlength
      obtain ⟨r, hr, b, rfl, hb⟩ := hmore a List.mem_cons_self s₁ s hs₁ hn
      obtain ⟨bs, hbs, heq⟩ := ih (by simp) (fun x hx => hlast x (List.mem_cons_of_mem _ hx))
        (fun x hx => hmore x (List.mem_cons_of_mem _ hx)) m s₁ hs' (by omega) (by omega)
      refine ⟨b :: bs, ?_, by rw [List.map_cons, hb, heq]; rfl⟩
      rw [collectUpTo, bind_of_ok hr]
      dsimp only
      rw [if_pos rfl, bind_of_ok hbs]
      rfl

end Retraces

/-- An expression that is leveled and can be written is read back, where nothing continues it. -/
theorem Expr.Leveled.retraces {e : Expr} (hlevel : e.Leveled) (hprint : e.Printable) {n : Nat} {s' : ParserState}
    (hstops : StopsExpr s') : Retraces n expression e.print s' fun e' => e'.erase = e.erase := by
  intro s hs _
  rw [run_expression]
  exact (hlevel.legible hprint).inner hs (Nat.lt_succ_self s.ahead.length) hstops

end ContractCompiler
