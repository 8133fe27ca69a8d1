import ContractCompiler.Proofs.Reading.Progress
import ContractCompiler.Proofs.Reading.Skipping

/-!
# Reading stays on the tokens

Every source text is read to its end, and no bound on repetition, skipping or nesting is reached (`reading_ends`). The places
the cursor is at on the way are `Parser.places`, step by step as the parser is made: the cursor only moves on, one token at a
time, and never over the end of the input. Every round of a loop that another round follows takes a token, and what is skipped
never closes a bracket that it has not opened.
-/

namespace ContractCompiler

/-! ## Places -/

/-- The place is one of the given tokens, found at its position, and the token before it one position earlier; before the
first token stands that token itself. The end of the input does not lie behind. -/
structure Cursor.InBounds (tokens : List Token) (c : Cursor) : Prop where
  tokens_eq : c.tokens = tokens
  position_lt : c.position < tokens.length
  current : tokens[c.position]? = some c.here
  previous : tokens[c.position - 1]? = some (c.behind.headD c.here)
  end_not_behind : ∀ t ∈ c.behind, t.kind ≠ .endOfInput

namespace Cursor

variable {tokens : List Token} {c : Cursor}

/-- A cursor on the tokens is in bounds if the end of the input is not behind it. -/
theorem inBounds_of_tokens_eq (h : c.tokens = tokens) (hbehind : ∀ t ∈ c.behind, t.kind ≠ .endOfInput) :
    c.InBounds tokens := by
  subst h
  refine ⟨rfl, ?_, ?_, ?_, hbehind⟩
  · have hlength := c.length_tokens
    omega
  · simp [tokens, position]
  · cases hc : c.behind with
    | nil => simp [tokens, position, hc]
    | cons t ts => simp [tokens, position, hc]

/-- It stays in bounds after one more token. -/
theorem InBounds.advance (h : c.InBounds tokens) : c.advance.InBounds tokens := by
  refine inBounds_of_tokens_eq (c.tokens_advance.trans h.tokens_eq) ?_
  rcases c.advance_cases with ⟨hc, -⟩ | ⟨t, ts, -, hend, hc⟩
  · rw [hc]
    exact h.end_not_behind
  · rw [hc]
    exact List.forall_mem_cons.mpr ⟨by simpa [atEnd] using hend, h.end_not_behind⟩

end Cursor

/-! ## The places on the way -/

/-- Where the cursor is after each step that `p` takes from `s` on. -/
def Parser.places : {α : Type} → Parser α → ParserState → List Cursor
  | _, .look _, s | _, .fail _, s | _, .recordMissing _, s | _, .note _, s => [s.toCursor]
  | _, .advance, s => [s.toCursor.advance]
  | _, .bind first next, s => first.places s ++
    match first.run s with
    | .ok a s' => (next a).places s'
    | .error _ _ => []
  | _, .attempt p, s => p.places s
  | _, .bounded p, s => (p (s.ahead.length + 1)).places s

/-- The places lead from `c` to `d`; from one to the next the cursor stays or moves over one token. -/
def Walk : Cursor → List Cursor → Cursor → Prop
  | c, [], d => c = d
  | c, place :: places, d => (place = c ∨ place = c.advance) ∧ Walk place places d

namespace Walk

variable {c d e : Cursor} {places places' : List Cursor}

/-- Walks one after the other make up a walk. -/
theorem append (h : Walk c places d) (h' : Walk d places' e) : Walk c (places ++ places') e := by
  induction places generalizing c with
  | nil =>
    cases h
    exact h'
  | cons place places ih => exact ⟨h.1, ih h.2⟩

/-- A walk goes from each place to the next one. -/
theorem isChain (h : Walk c places d) : (c :: places).IsChain fun c d => d = c ∨ d = c.advance := by
  induction places generalizing c with
  | nil => exact .singleton c
  | cons place places ih => exact .cons_cons h.1 (ih h.2)

/-- A walk ends at its last place. -/
theorem getLast?_eq (h : Walk c places d) : (c :: places).getLast? = some d := by
  induction places generalizing c with
  | nil => exact congrArg some h
  | cons place places ih => exact ih h.2

/-- What moving on keeps holds all along a walk. -/
theorem forall_mem {P : Cursor → Prop} (hstep : ∀ c, P c → P c.advance) (h : Walk c places d) (hc : P c) :
    ∀ place ∈ c :: places, P place := by
  induction places generalizing c with
  | nil => exact List.forall_mem_singleton.mpr hc
  | cons place places ih =>
    have hplace : P place := by
      rcases h.1 with rfl | rfl
      · exact hc
      · exact hstep c hc
    exact List.forall_mem_cons.mpr ⟨hc, ih h.2 hplace⟩

end Walk

/-- A parser walks to where it leaves the cursor. -/
theorem Parser.walk {α : Type} (p : Parser α) : ∀ s, Walk s.toCursor (p.places s) (stateOf (p s)).toCursor := by
  induction p with
  | look | fail | recordMissing | note => exact fun s => ⟨.inl rfl, rfl⟩
  | advance => exact fun s => ⟨.inr rfl, rfl⟩
  | bind p f ihp ihf =>
    intro s
    have hp := ihp s
    rw [places, run]
    cases h : p s with
    | ok a s₁ =>
      rw [h] at hp
      exact hp.append (ihf a s₁)
    | error e s₁ =>
      rw [h] at hp
      exact hp.append rfl
  | attempt p ih =>
    intro s
    have hp := ih s
    rw [places, run]
    cases h : p s with
    | ok a s₁ | error e s₁ =>
      rw [h] at hp
      exact hp
  | bounded p ih => exact fun s => ih _ s

/-! ## Brackets -/

/-- With `depth` brackets open, no beginning of the tokens closes more of them than are open. -/
def ClosesOnlyOpened (opening closing : Mark) (depth : Nat) (ts : List Token) : Prop :=
  ∀ us, us <+: ts → us.countP (fun t => t.kind = .mark closing) ≤ us.countP (fun t => t.kind = .mark opening) + depth

namespace ClosesOnlyOpened

variable {opening closing : Mark} {depth depth' : Nat} {t : Token} {ts : List Token}

/-- Without tokens nothing is closed. -/
theorem nil : ClosesOnlyOpened opening closing depth [] := by
  intro us hus
  rw [List.prefix_nil.mp hus]
  exact Nat.zero_le _

/-- A token in front changes the depth by what it opens and closes. -/
theorem cons (ht : depth' + [t].countP (fun t => t.kind = .mark closing) =
      depth + [t].countP (fun t => t.kind = .mark opening)) (h : ClosesOnlyOpened opening closing depth' ts) :
    ClosesOnlyOpened opening closing depth (t :: ts) := by
  intro us hus
  rcases List.prefix_cons_iff.mp hus with rfl | ⟨vs, rfl, hvs⟩
  · exact Nat.zero_le _
  · have hle := h vs hvs
    rw [← List.singleton_append, List.countP_append, List.countP_append]
    omega

/-- While the first bracket stays open, no bracket is missing. -/
theorem of_staysOpen (h : StaysOpen depth ts) : ClosesOnlyOpened .lt .gt depth ts := fun us hus => Nat.le_of_lt (h us hus)

/-- A list in angle brackets closes only what it opened. -/
theorem of_angleList (h : AngleList ts) : ClosesOnlyOpened .lt .gt 0 ts := by
  obtain ⟨o, us, c, rfl, ho, hc, hopen, hcount⟩ := h
  have hlist : ClosesOnlyOpened .lt .gt 1 (us ++ [c]) := by
    intro vs hvs
    rcases List.prefix_concat_iff.mp hvs with rfl | hvs
    · unfold closeAngles openAngles at hcount
      simp [hc, hcount]
    · exact of_staysOpen hopen vs hvs
  exact hlist.cons (by simp [ho])

theorem of_unclosedAngles (h : UnclosedAngles ts) : ClosesOnlyOpened .lt .gt 0 ts := by
  obtain ⟨o, us, rfl, ho, hopen⟩ := h
  exact (of_staysOpen hopen).cons (by simp [ho])

end ClosesOnlyOpened

/-- What one step of skipping a malformed member does. -/
theorem Cursor.memberStep_cases (depth : Nat) (t : Token) :
    memberStep depth t.kind = .leave ∨
      (memberStep depth t.kind = .last ∧ (t.kind = .mark .rbrace → depth = 1)) ∨
      ∃ depth', memberStep depth t.kind = .take depth' ∧
        depth' + [t].countP (fun t => t.kind = .mark .rbrace) = depth + [t].countP (fun t => t.kind = .mark .lbrace) := by
  generalize hk : t.kind = kind
  unfold memberStep
  split
  · exact .inr (.inr ⟨_, rfl, by simp [hk]⟩)
  · rcases depth with _ | _ | depth
    · exact .inl rfl
    · exact .inr (.inl ⟨rfl, fun _ => rfl⟩)
    · exact .inr (.inr ⟨_, rfl, by simp [hk]⟩)
  · rcases depth with _ | depth
    · exact .inr (.inl ⟨rfl, by simp⟩)
    · exact .inr (.inr ⟨_, rfl, by simp [hk]⟩)
  · rename_i hopen hclose _
    exact .inr (.inr ⟨_, rfl, by simp [hk, show kind ≠ _ from hopen, show kind ≠ _ from hclose]⟩)

namespace Parser

/-- Skipping a malformed member with `depth` braces open. -/
theorem closesOnlyOpened_of_skips {depth : Nat} {s s' : ParserState} {ts : List Token}
    (h : Skips Cursor.memberStep depth s ts s') : ClosesOnlyOpened .lbrace .rbrace depth ts := by
  induction h with
  | ended | left => exact .nil
  | @last depth s _ hstep =>
    rcases Cursor.memberStep_cases depth s.here with h | ⟨-, hone⟩ | ⟨_, h, -⟩
    · exact nomatch hstep.symm.trans h
    · intro us hus
      rcases List.prefix_cons_iff.mp hus with rfl | ⟨vs, rfl, hvs⟩
      · exact Nat.zero_le _
      · rw [List.prefix_nil.mp hvs]
        by_cases hbrace : s.here.kind = .mark .rbrace
        · simp [hbrace, hone hbrace]
        · simp [hbrace]
    · exact nomatch hstep.symm.trans h
  | @took depth depth' s s' ts _ hstep _ ih =>
    rcases Cursor.memberStep_cases depth s.here with h | ⟨h, -⟩ | ⟨depth'', h, hdepth⟩
    · exact nomatch hstep.symm.trans h
    · exact nomatch hstep.symm.trans h
    · cases hstep.symm.trans h
      exact ih.cons hdepth

/-- Skipping a member closes only braces that were opened on the way. -/
theorem closesOnlyOpened_skipMember {s : ParserState} (hs : s.Sealed) :
    ∃ ts s', skip Cursor.memberStep 0 s = .ok () s' ∧ Passed s ts s' ∧ ClosesOnlyOpened .lbrace .rbrace 0 ts := by
  obtain ⟨ts, s', hskip, hskips⟩ := skips_skip Cursor.memberStep 0 hs
  exact ⟨ts, s', hskip, hskips.passed hs, closesOnlyOpened_of_skips hskips⟩

/-- Skipping angle brackets closes only those that were opened on the way. -/
theorem closesOnlyOpened_skipAngles {s : ParserState} (hs : s.Sealed) :
    ∃ ts s', skipAngles s = .ok () s' ∧ Passed s ts s' ∧ ClosesOnlyOpened .lt .gt 0 ts := by
  have hok : ∃ s', skipAngles s = .ok () s' := by
    rw [skipAngles, run_check]
    split
    · obtain ⟨_, s', hskip, -⟩ := skips_skip Cursor.angleStep 0 hs
      exact ⟨s', hskip⟩
    · exact ⟨s, rfl⟩
  obtain ⟨s', h⟩ := hok
  obtain ⟨ts, hts, (⟨rfl, -⟩ | hlist) | ⟨hunclosed, -⟩⟩ := skipAngles_eq_ok hs h
  · exact ⟨[], s', h, hts, .nil⟩
  · exact ⟨ts, s', h, hts, .of_angleList hlist⟩
  · exact ⟨ts, s', h, hts, .of_unclosedAngles hunclosed⟩

/-! ## The end -/

/-- A round of `items` never fails, and is the last one only at the end of the input. -/
theorem itemRound_cases {s : ParserState} (hs : s.Sealed) :
    (s.here.kind = .endOfInput ∧ itemRound s = .ok ([], false) s) ∨ ∃ is s', itemRound s = .ok (is, true) s' := by
  rw [itemRound, run_atEnd]
  by_cases hend : s.here.kind = .endOfInput
  · rw [decide_eq_true hend]
    exact .inl ⟨hend, rfl⟩
  · rw [decide_eq_false hend, if_neg Bool.false_ne_true]
    right
    cases h : item s with
    | ok i s₁ => exact ⟨[i], s₁, bind_of_ok (attempt_of_ok h)⟩
    | error e s₁ =>
      obtain ⟨ts, hts⟩ := passed_of_error h
      have hs₁ : ParserState.Sealed { s₁ with errors := s₁.errors ++ [e] } := hts.sealed hs
      obtain ⟨_, s₂, hskip, -⟩ := skips_skip Cursor.otherStep .fresh hs₁
      refine ⟨[], s₂, ?_⟩
      rw [bind_of_ok (attempt_of_error h)]
      exact bind_of_ok hskip

/-- Reading items does not fail, and goes on to the end of the input. -/
theorem items_to_end {s : ParserState} (hs : s.Sealed) : ∃ is s', items s = .ok is s' ∧ s'.here.kind = .endOfInput := by
  have rounds : ∀ n s, s.Sealed → s.ahead.length < n →
      ∃ is s', collectUpTo itemRound n s = .ok is s' ∧ s'.here.kind = .endOfInput := by
    intro n
    induction n with
    | zero => exact fun _ _ hlength => absurd hlength (Nat.not_lt_zero _)
    | succ n ih =>
      intro s hs hlength
      unfold collectUpTo
      rcases itemRound_cases hs with ⟨hend, h⟩ | ⟨is, s₁, h⟩
      · exact ⟨[], s, bind_of_ok h, hend⟩
      · have htook := takes_itemRound s s₁ _ hs h rfl
        have hlt := htook.length_lt
        obtain ⟨ts, -, hts⟩ := htook
        obtain ⟨rest, s', hrest, hend⟩ := ih s₁ (hts.sealed hs) (by omega)
        refine ⟨is ++ rest, s', ?_, hend⟩
        rw [bind_of_ok h]
        exact bind_of_ok hrest
  exact rounds _ s hs (Nat.lt_succ_self _)

/-- The loop goes round and round, and every round takes a token unless it is the last one. -/
structure Loop {α : Type} (loop : Parser (List α)) (round : Parser (List α × Bool)) : Prop where
  eq_collect : loop = collect round
  takes : Takes (fun r => r.2 = true) round

end Parser

/-- Where the cursor is while a source text is read: at the start, and after each step. -/
def placesOf (source : String) : List Cursor :=
  Cursor.start (tokensOf source) :: Parser.items.places ⟨Cursor.start (tokensOf source), [], []⟩

/-- How a source text is read: what reading comes to, and where the cursor is on the way. -/
structure ReadToEnd (source : String) (items : List Item) (final : ParserState) : Prop where
  run_eq : Parser.items ⟨Cursor.start (tokensOf source), [], []⟩ = .ok items final
  parse_eq : (parse source).file.items = items
  /-- No bound was reached, nowhere: what fails for it would have been recorded. -/
  not_exhausted : ∀ e ∈ final.errors, e.fault ≠ .exhausted
  parse_not_exhausted : ∀ e ∈ (parse source).errors, e.fault ≠ .exhausted
  /-- The cursor is on the end of the input, which is the last token. -/
  at_end : final.here.kind = .endOfInput ∧ final.position + 1 = (tokensOf source).length
  arrives : (placesOf source).getLast? = some final.toCursor
  /-- The cursor stays or moves on by one token. -/
  moves : (placesOf source).IsChain fun c d => d.position = c.position ∨ d.position = c.position + 1
  in_bounds : ∀ c ∈ placesOf source, c.InBounds (tokensOf source)

/-- The errors of a source text are those of its tokens and those of reading them. -/
theorem parse_not_exhausted {source : String} {items : List Item} {final : ParserState}
    (hread : readTokens (tokensOf source) = (items, final)) (hfinal : ∀ e ∈ final.errors, e.fault ≠ .exhausted) :
    ∀ e ∈ (parse source).errors, e.fault ≠ .exhausted := by
  intro e he
  have hperm := List.mergeSort_perm (lexErrors (Token.scan source) ++ (readTokens (tokensOf source)).2.errors)
    fun a b => a.span.start ≤ b.span.start
  rcases List.mem_append.mp (hperm.mem_iff.mp he) with he | he
  · obtain ⟨e', -, rfl⟩ := List.mem_map.mp he
    exact nofun
  · rw [hread] at he
    exact hfinal e he

open ContractCompiler.Parser

/-- Reading ends on every source text, at the end of the input, without reaching a bound, and stays on the tokens. The loops
over items, members, statements of a block, parameters, arguments, imported names and declarators take a token in every round
but the last. Wherever on the tokens a list in angle brackets or a malformed member is skipped, no bracket is closed that was
not opened. -/
theorem reading_ends (source : String) :
    (∃ items final, ReadToEnd source items final) ∧
    (Loop items itemRound ∧ Loop members memberRound ∧ Loop (stmtsUpToBrace statement) (stmtRound statement) ∧
      Loop params (listRound .rparen .paramSeparator param) ∧
      (arguments exprOf = (do if ← accept .rparen then return [] else collect (argumentRound exprOf)) ∧
        Takes (fun r => r.2 = true) (argumentRound exprOf)) ∧
      Loop (listUpTo .rbrace .importSeparator importSpecifier) (listRound .rbrace .importSeparator importSpecifier) ∧
      Loop declarators declaratorRound) ∧
    ∀ s : ParserState, s.toCursor.tokens = tokensOf source →
      (∃ ts s', skipAngles s = .ok () s' ∧ Passed s ts s' ∧ ClosesOnlyOpened .lt .gt 0 ts) ∧
      ∃ ts s', skip Cursor.memberStep 0 s = .ok () s' ∧ Passed s ts s' ∧ ClosesOnlyOpened .lbrace .rbrace 0 ts := by
  refine ⟨?_, ?_, fun s hs => ?_⟩
  · have hon : ParserState.On (tokensOf source) ⟨Cursor.start (tokensOf source), [], []⟩ := on_start
    obtain ⟨is, final, hitems, hend⟩ := items_to_end hon.sealed
    have hread : readTokens (tokensOf source) = (is, final) := by rw [readTokens, hitems]
    have hfinal : final.Ready := by
      have hsettled := settles_items.settled _ ⟨hon.sealed, nofun⟩ (Nat.lt_succ_self _)
      rwa [hitems] at hsettled
    have hwalk := items.walk ⟨Cursor.start (tokensOf source), [], []⟩
    rw [hitems] at hwalk
    have hstart : (Cursor.start (tokensOf source)).InBounds (tokensOf source) := by
      refine Cursor.inBounds_of_tokens_eq hon.tokens_eq.symm ?_
      cases tokensOf source <;> simp [Cursor.start]
    have hbounds : ∀ c ∈ placesOf source, c.InBounds (tokensOf source) := hwalk.forall_mem (fun _ h => h.advance) hstart
    refine ⟨is, final, hitems, congrArg Prod.fst hread, hfinal.errors, parse_not_exhausted hread hfinal.errors,
      ⟨hend, ?_⟩, hwalk.getLast?_eq, ?_, hbounds⟩
    · have htokens : final.toCursor.tokens = tokensOf source :=
        (hbounds _ (List.mem_of_getLast? hwalk.getLast?_eq)).tokens_eq
      have hon' : final.On (tokensOf source) := ⟨hon.follow, htokens.symm⟩
      have hlength := final.toCursor.length_tokens
      rw [htokens, hon'.ahead_eq_nil hend] at hlength
      exact hlength.symm
    · refine hwalk.isChain.imp ?_
      rintro c _ (rfl | rfl)
      · exact .inl rfl
      · exact c.position_advance
  · exact ⟨⟨rfl, takes_itemRound⟩, ⟨rfl, takes_memberRound⟩, ⟨rfl, takes_stmtRound statement takes_statement⟩,
      ⟨rfl, takes_listRound _ _ _⟩, ⟨rfl, takes_argumentRound exprOf⟩, ⟨rfl, takes_listRound _ _ _⟩,
      ⟨rfl, takes_declaratorRound⟩⟩
  · have hsealed := ParserState.On.sealed ⟨follow_tokensOf source, hs.symm⟩
    exact ⟨closesOnlyOpened_skipAngles hsealed, closesOnlyOpened_skipMember hsealed⟩

end ContractCompiler
