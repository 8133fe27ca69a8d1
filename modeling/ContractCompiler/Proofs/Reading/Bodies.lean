import ContractCompiler.Proofs.Reading.Accepted
import Mathlib.Data.List.Nodup

/-!
# Bodies

The body of a class and of a block stands between braces, and the loops that read it stop at the closing brace or at the
end of the input. Neither is reported, so in a source text without errors a body is closed by the brace that matches its
opening one, or it runs out: everything up to the end of the input belongs to it. `Body` is what both kinds of body have
in common, and a brace of a body is one that lies in none of its parts.
-/

namespace ContractCompiler

/-! ## Bodies and their braces -/

/-- The body of a class or of a block: where its opening brace stands at the earliest, where it ends, and the spans of
the members or statements in it. -/
structure Body where
  head : Nat
  stop : Nat
  parts : List Span

/-- The body of a block. -/
def Block.body (b : Block) : Body := ⟨b.span.start, b.span.stop, b.stmts.map Stmt.span⟩

/-- The body of a class. Its opening brace comes after the name. -/
def ClassDecl.body (c : ClassDecl) : Body := ⟨c.name.span.stop, c.span.stop, c.members.map Member.span⟩

/-- The bodies of the classes of a file and of all blocks in them. -/
def SourceFile.bodies (file : SourceFile) : List Body :=
  file.classes.map ClassDecl.body ++ file.blocks.map Block.body

namespace Body

/-- The token is a brace of the body itself: it lies in none of the parts. -/
def HasBrace (b : Body) (t : Token) : Prop :=
  (t.kind = .mark .lbrace ∨ t.kind = .mark .rbrace) ∧ ∀ p ∈ b.parts, ¬ t.Within p

/-- From the opening brace `o` on come the tokens `inner`, none of them a brace of the body itself, and then `rest`. -/
structure Opened (tokens : List Token) (b : Body) (o : Token) (inner rest : List Token) : Prop where
  suffix : o :: (inner ++ rest) <:+ tokens
  head_le : b.head ≤ o.span.start
  kind_eq : o.kind = .mark .lbrace
  hasBrace : b.HasBrace o
  inner_free : ∀ t ∈ inner, ¬ b.HasBrace t

/-- The last token of the body is the brace that matches its opening brace. -/
def Closed (tokens : List Token) (b : Body) : Prop :=
  ∃ o inner c rest, b.Opened tokens o inner (c :: rest) ∧ c.kind = .mark .rbrace ∧ b.HasBrace c ∧ c.span.stop = b.stop

/-- No brace closes the body: it ends with the last token before the end of the input. -/
def RunsOut (tokens : List Token) (b : Body) : Prop :=
  ∃ o inner last, b.Opened tokens o inner [last] ∧ last.kind = .endOfInput ∧
    ∃ t ∈ (o :: inner).getLast?, t.span.stop = b.stop

/-- The tokens `inner` come after the opening brace of the body and before its end, which is the brace that matches it or
the end of the input. -/
def Holds (tokens : List Token) (b : Body) (inner : List Token) : Prop :=
  (∃ o c rest, b.Opened tokens o inner (c :: rest) ∧ c.kind = .mark .rbrace ∧ b.HasBrace c ∧ c.span.stop = b.stop) ∨
  ∃ o last, b.Opened tokens o inner [last] ∧ last.kind = .endOfInput ∧ ∃ t ∈ (o :: inner).getLast?, t.span.stop = b.stop

/-- A body that holds tokens is closed or runs out. -/
theorem Holds.closed_or_runsOut {tokens inner : List Token} {b : Body} (h : b.Holds tokens inner) :
    b.Closed tokens ∨ b.RunsOut tokens := by
  rcases h with ⟨o, c, rest, h⟩ | ⟨o, last, h⟩
  · exact .inl ⟨o, inner, c, rest, h⟩
  · exact .inr ⟨o, inner, last, h⟩

/-- A body that runs out is not closed. -/
theorem RunsOut.not_closed {tokens : List Token} (hfollow : Token.Follow 0 tokens) {b : Body} (h : b.RunsOut tokens) :
    ¬ b.Closed tokens := by
  rintro ⟨o', inner', c, rest, hopened', hc, hbrace, hstop⟩
  obtain ⟨o, inner, last, hopened, hlast, t, ht, hstop'⟩ := h
  obtain ⟨before, hbefore⟩ := hopened.suffix
  have hdrop : tokens.dropLast = before ++ o :: inner := by
    rw [← hbefore, ← List.cons_append, ← List.append_assoc, List.dropLast_concat]
  have hmem : c ∈ tokens.dropLast := by
    have hc' : c ∈ tokens := hopened'.suffix.subset (by simp)
    rw [← hbefore, ← List.cons_append, ← List.append_assoc] at hc'
    rcases List.mem_append.mp hc' with hc' | hc'
    · exact hdrop ▸ hc'
    · rw [List.mem_singleton.mp hc', hlast] at hc
      cases hc
  have ht : t ∈ o :: inner := List.mem_of_getLast? ht
  -- Two tokens that end at the same place are the same.
  have heq : c = t := by
    refine List.inj_on_of_nodup_map hfollow.stops_nodup hmem ?_ (hstop.trans hstop'.symm)
    rw [hdrop]
    exact List.mem_append_right _ ht
  subst heq
  rcases List.mem_cons.mp ht with rfl | ht
  · rw [hopened.kind_eq] at hc
    cases hc
  · exact hopened.inner_free _ ht hbrace

end Body

/-! ## Tokens filled by parts -/

/-- The tokens of a part lie within its span. -/
theorem within_spanTo {ts : List Token} {first t : Token} (hts : Ascending ts) (hfirst : ts.head? = some first) (ht : t ∈ ts) :
    t.Within (spanTo first.span.start ts) := by
  obtain ⟨last, hlast, hstop⟩ := spanTo_stop hts (List.mem_of_mem_head? hfirst)
  refine ⟨?_, hstop ▸ (hts.le_last ht hlast).2⟩
  obtain ⟨rest, rfl⟩ := List.head?_eq_some_iff.mp hfirst
  rcases List.mem_cons.mp ht with rfl | ht
  · exact Nat.le_refl _
  · exact Nat.le_trans (hts.1 first List.mem_cons_self) (List.rel_of_pairwise_cons hts.2 ht)

/-- The tokens are those of parts with the given spans, one part after another, with tokens of the kinds `strays` between
them. -/
inductive Filled (strays : List TokenKind) : List Token → List Span → Prop where
  | nil : Filled strays [] []
  | part {ts us : List Token} {t : Token} {spans : List Span} :
      ts.head? = some t → Filled strays us spans → Filled strays (ts ++ us) (spanTo t.span.start ts :: spans)
  | stray {t : Token} {us : List Token} {spans : List Span} :
      t.kind ∈ strays → Filled strays us spans → Filled strays (t :: us) spans

namespace Filled

variable {strays : List TokenKind} {ts : List Token} {spans : List Span}

/-- A part starts and ends with a token. -/
theorem bounds (h : Filled strays ts spans) (hts : Ascending ts) :
    ∀ p ∈ spans, ∃ a ∈ ts, ∃ b ∈ ts, p.start = a.span.start ∧ p.stop = b.span.stop := by
  induction h with
  | nil => exact List.forall_mem_nil _
  | @part ts us t spans ht _ ih =>
    refine List.forall_mem_cons.mpr ⟨?_, fun p hp => ?_⟩
    · have htmem := List.mem_of_mem_head? ht
      obtain ⟨last, hlast, hstop⟩ := spanTo_stop hts.left htmem
      exact ⟨t, List.mem_append_left _ htmem, last, List.mem_append_left _ (List.mem_of_getLast? hlast), rfl, hstop⟩
    · obtain ⟨a, ha, b, hb, hbounds⟩ := ih hts.right p hp
      exact ⟨a, List.mem_append_right _ ha, b, List.mem_append_right _ hb, hbounds⟩
  | @stray t us _ _ _ ih =>
    intro p hp
    obtain ⟨a, ha, b, hb, hbounds⟩ := ih (hts.sublist (List.sublist_cons_self t us)) p hp
    exact ⟨a, List.mem_cons_of_mem _ ha, b, List.mem_cons_of_mem _ hb, hbounds⟩

/-- Every token lies in a part or is a stray one. -/
theorem within_or_stray (h : Filled strays ts spans) (hts : Ascending ts) :
    ∀ t ∈ ts, (∃ p ∈ spans, t.Within p) ∨ t.kind ∈ strays := by
  induction h with
  | nil => exact List.forall_mem_nil _
  | @part ts us t spans ht _ ih =>
    intro u hu
    rcases List.mem_append.mp hu with hu | hu
    · exact .inl ⟨_, List.mem_cons_self, within_spanTo hts.left ht hu⟩
    · exact (ih hts.right u hu).imp_left fun ⟨p, hp, hu⟩ => ⟨p, List.mem_cons_of_mem _ hp, hu⟩
  | @stray t us _ ht _ ih =>
    refine List.forall_mem_cons.mpr ⟨.inr ht, ih (hts.sublist (List.sublist_cons_self t us))⟩

/-- A token before the parts lies in none of them. -/
theorem not_within_of_before (h : Filled strays ts spans) {t : Token} (hts : Ascending (t :: ts))
    (ht : t.span.start < t.span.stop) : ∀ p ∈ spans, ¬ t.Within p := by
  intro p hp hwithin
  obtain ⟨a, ha, -, -, hstart, -⟩ := h.bounds (hts.sublist (List.sublist_cons_self t ts)) p hp
  have := List.rel_of_pairwise_cons hts.2 ha
  have := hwithin.1
  omega

/-- A token after the parts lies in none of them. -/
theorem not_within_of_after (h : Filled strays ts spans) {t : Token} (hts : Ascending (ts ++ [t]))
    (ht : t.span.start < t.span.stop) : ∀ p ∈ spans, ¬ t.Within p := by
  intro p hp hwithin
  obtain ⟨-, -, b, hb, -, hstop⟩ := h.bounds hts.left p hp
  have := (List.pairwise_append.mp hts.2).2.2 b hb t (by simp)
  have := hwithin.2
  omega

end Filled

/-! ## Reading bodies -/

namespace Parser

/-- One round of reading a body without an error: the end of the input, a token that closes the body, a part or a stray
token. -/
inductive BodyRound {α : Type} (span : α → Span) (closers strays : List TokenKind) (s : ParserState) :
    List α × Bool → ParserState → Prop where
  | ended : s.here.kind = .endOfInput → BodyRound span closers strays s ([], false) s
  | closed : s.here.kind ∈ closers → BodyRound span closers strays s ([], false) s.next
  | part {a : α} {s' : ParserState} : Covers span s a s' → BodyRound span closers strays s ([a], true) s'
  | stray : s.here.kind ∈ strays → BodyRound span closers strays s ([], true) s.next

/-- The tokens `inner` lie between the two states, and then a token that closes the body, unless the input ends there. -/
def BodyEnd (closers : List TokenKind) (s : ParserState) (inner : List Token) (s' : ParserState) : Prop :=
  (∃ c, c.kind ∈ closers ∧ Passed s (inner ++ [c]) s') ∨ (Passed s inner s' ∧ s'.here.kind = .endOfInput)

/-- Tokens before those that a body ends with. -/
theorem BodyEnd.prepend {closers : List TokenKind} {s s₁ s' : ParserState} {ts inner : List Token} (h : Passed s ts s₁)
    (h' : BodyEnd closers s₁ inner s') : BodyEnd closers s (ts ++ inner) s' := by
  rcases h' with ⟨c, hc, h'⟩ | ⟨h', hend⟩
  · exact .inl ⟨c, hc, by rw [List.append_assoc]; exact h.trans h'⟩
  · exact .inr ⟨h.trans h', hend⟩

section Rounds

variable {α : Type} {span : α → Span} {closers strays : List TokenKind} {step : Parser (List α × Bool)}

/-- The end of the input and the closing brace come before anything else. -/
theorem bodyRound_of_end {s s' : ParserState} {r : List α × Bool}
    (h : (do
      if ← atEnd then return ([], false)
      if ← accept .rbrace then return ([], false)
      step) s = .ok r s')
    (hstep : step s = .ok r s' → BodyRound span [.mark .rbrace] strays s r s') :
    BodyRound span [.mark .rbrace] strays s r s' := by
  rw [run_atEnd] at h
  by_cases hend : s.here.kind = .endOfInput
  · rw [decide_eq_true hend, if_pos rfl] at h
    obtain ⟨rfl, rfl⟩ := pure_eq_ok.mp h
    exact .ended hend
  rw [decide_eq_false hend, if_neg Bool.false_ne_true, run_accept] at h
  by_cases hc : s.here.kind = .mark .rbrace
  · rw [if_pos hc, if_pos rfl] at h
    obtain ⟨rfl, rfl⟩ := pure_eq_ok.mp h
    exact .closed (List.mem_singleton.mpr hc)
  · rw [if_neg hc, if_neg Bool.false_ne_true] at h
    exact hstep h

/-- A part that could not be read would have been recorded. -/
theorem bodyRound_of_attempt {p : Parser α} {k : Option α → Parser (List α × Bool)}
    {s s' : ParserState} {r : List α × Bool} (hp : ∀ {a s₁}, p s = .ok a s₁ → Covers span s a s₁)
    (hk : ∀ a, k (some a) = pure ([a], true)) (h : (attempt p >>= k) s = .ok r s') (hclean : s'.errors = []) :
    BodyRound span closers strays s r s' := by
  obtain ⟨o, s₁, ho, h⟩ := bind_eq_ok.mp h
  cases o with
  | some a =>
    rw [hk] at h
    obtain ⟨rfl, rfl⟩ := pure_eq_ok.mp h
    exact .part (hp (attempt_eq_ok_some.mp ho))
  | none =>
    obtain ⟨ts, hts⟩ := passed_of_ok h
    have hclean₁ := hts.errors_eq_nil hclean
    obtain ⟨e, s₂, -, rfl⟩ := attempt_eq_ok_none.mp ho
    simp at hclean₁

/-- A body that was read round by round is filled by its parts up to where it ends. -/
theorem filled_of_rounds (hclosers : .endOfInput ∉ closers) (hstrays : .endOfInput ∉ strays)
    (hround : ∀ {s s' : ParserState} {r : List α × Bool}, s.Sealed → step s = .ok r s' → s'.errors = [] →
      BodyRound span closers strays s r s') :
    ∀ (n : Nat) {s s' : ParserState} {items : List α}, s.Sealed →
      collectUpTo step n s = .ok items s' → s'.errors = [] →
      ∃ inner, Filled strays inner (items.map span) ∧ BodyEnd closers s inner s' := by
  intro n
  induction n with
  | zero => exact fun _ h => nomatch h
  | succ n ih =>
    intro s s' items hs h hclean
    rw [collectUpTo] at h
    obtain ⟨⟨first, again⟩, s₁, hfirst, h⟩ := bind_eq_ok.mp h
    dsimp only at h
    have hclean₁ : s₁.errors = [] := by
      obtain ⟨ts, hts⟩ := passed_of_ok h
      exact hts.errors_eq_nil hclean
    -- The rest of the rounds.
    have rest : again = true → ∃ more, items = first ++ more ∧
        ∃ inner, Filled strays inner (more.map span) ∧ BodyEnd closers s₁ inner s' := by
      rintro rfl
      obtain ⟨more, s₂, hmore, h⟩ := bind_eq_ok.mp h
      obtain ⟨rfl, rfl⟩ := pure_eq_ok.mp h
      obtain ⟨ts, hts⟩ := passed_of_ok hfirst
      exact ⟨more, rfl, ih (hts.sealed hs) hmore hclean⟩
    cases hround hs hfirst hclean₁ with
    | ended hend =>
      obtain ⟨rfl, rfl⟩ := pure_eq_ok.mp h
      exact ⟨[], .nil, .inr ⟨Passed.refl s, hend⟩⟩
    | closed hc =>
      obtain ⟨rfl, rfl⟩ := pure_eq_ok.mp h
      exact ⟨[], .nil, .inl ⟨s.here, hc, passed_here hs fun hk => hclosers (hk ▸ hc)⟩⟩
    | part hcovers =>
      obtain ⟨ts, hne, hts, hspan⟩ := hcovers
      obtain ⟨more, rfl, inner, hfilled, hend⟩ := rest rfl
      refine ⟨ts ++ inner, ?_, hend.prepend hts⟩
      obtain ⟨t, us, rfl⟩ := List.exists_cons_of_ne_nil hne
      rw [List.singleton_append, List.map_cons, hspan, ← hts.head? t rfl]
      exact .part rfl hfilled
    | stray hstray =>
      have hk : s.here.kind ≠ .endOfInput := fun hk => hstrays (hk ▸ hstray)
      obtain ⟨more, rfl, inner, hfilled, hend⟩ := rest rfl
      exact ⟨s.here :: inner, .stray hstray hfilled, hend.prepend (passed_here hs hk)⟩

end Rounds

variable {s s' : ParserState}

/-- The statements of a block fill it. -/
theorem filled_stmtsUpToBrace {inner : Parser Stmt} (hinner : Spans inner Stmt.span)
    {stmts : List Stmt} (hs : s.Sealed) (h : stmtsUpToBrace inner s = .ok stmts s') (hclean : s'.errors = []) :
    ∃ ts, Filled [] ts (stmts.map Stmt.span) ∧ BodyEnd [.mark .rbrace] s ts s' := by
  refine filled_of_rounds (by simp) (by simp) ?_ _ hs h hclean
  intro s s' r hs h hclean
  exact bodyRound_of_end h fun h => bodyRound_of_attempt (hinner _ _ _ hs) (fun _ => rfl) h hclean

/-- The members of a class, with semicolons between them, fill it. -/
theorem filled_members {ms : List Member} (hs : s.Sealed) (h : members s = .ok ms s') (hclean : s'.errors = []) :
    ∃ ts, Filled [.mark .semicolon] ts (ms.map Member.span) ∧ BodyEnd [.mark .rbrace] s ts s' := by
  refine filled_of_rounds (by simp) (by simp) ?_ _ hs h hclean
  intro s s' r hs h hclean
  refine bodyRound_of_end h fun h => ?_
  rw [run_accept] at h
  split at h
  · rename_i hk
    rw [if_pos rfl] at h
    obtain ⟨rfl, rfl⟩ := pure_eq_ok.mp h
    exact .stray (by simp [hk])
  · rw [if_neg Bool.false_ne_true] at h
    exact bodyRound_of_attempt (spans_member _ _ _ hs) (fun _ => rfl) h hclean

/-- A body that is filled from its opening brace on to where it ends holds what it is filled by. -/
theorem holds_of_filled {tokens ts : List Token} {strays : List TokenKind} {b : Body} {start : Nat} (hs : s.On tokens)
    (hk : s.here.kind = .mark .lbrace) (hstrays : ∀ k ∈ strays, k ≠ .mark .lbrace ∧ k ≠ .mark .rbrace)
    (hfilled : Filled strays ts b.parts) (hend : BodyEnd [.mark .rbrace] s.next ts s') (hhead : b.head ≤ s.here.span.start)
    (hstart : start ≤ s.here.span.start) (hstop : b.stop = (s'.spanFrom start).stop) : b.Holds tokens ts := by
  have hopen : Passed s [s.here] s.next := passed_here hs.sealed (hk ▸ nofun)
  -- What holds whichever way the body ends.
  have opened : ∀ rest, s.ahead = ts ++ rest → b.Opened tokens s.here ts rest ∧ Ascending (s.here :: (ts ++ rest)) := by
    intro rest hahead
    have hsuffix : s.here :: (ts ++ rest) <:+ tokens := ⟨s.behind.reverse, by rw [hs.tokens_eq, hahead]⟩
    have hascending : Ascending (s.here :: (ts ++ rest)) := hs.follow.ascending_all.sublist hsuffix.sublist
    have hlt := hs.follow.start_lt_stop s.here (hsuffix.subset (by simp)) (hk ▸ nofun)
    refine ⟨⟨hsuffix, hhead, hk, ⟨.inl hk, ?_⟩, ?_⟩, hascending⟩
    · exact hfilled.not_within_of_before (hascending.sublist (by simp)) hlt
    · rintro t ht ⟨hbrace, hnot⟩
      have hts : Ascending ts := hascending.sublist ((List.sublist_append_left ts rest).cons _)
      rcases hfilled.within_or_stray hts t ht with ⟨p, hp, hwithin⟩ | hstray
      · exact hnot p hp hwithin
      · exact hbrace.elim (hstrays _ hstray).1 (hstrays _ hstray).2
  rcases hend with ⟨c, hc, hpassed⟩ | ⟨hpassed, hend⟩
  · rw [List.mem_singleton] at hc
    have hall := hopen.trans hpassed
    have hahead : s.ahead = ts ++ c :: (s'.here :: s'.ahead) := by
      simpa using (List.cons.inj hall.tokens).2
    obtain ⟨hopened, hascending⟩ := opened _ hahead
    obtain ⟨t, ht, heq⟩ := hall.spanFrom_stop hs (by simp) hstart
    rw [← List.append_assoc, List.getLast?_concat] at ht
    cases ht
    have hlt := hs.follow.start_lt_stop c (hopened.suffix.subset (by simp)) (hc ▸ nofun)
    refine .inl ⟨s.here, c, _, hopened, hc, ⟨.inr hc, ?_⟩, by rw [hstop, heq]⟩
    exact hfilled.not_within_of_after (hascending.sublist (by simp)) hlt
  · have hall := hopen.trans hpassed
    have hnil := (hall.on hs).ahead_eq_nil hend
    have hahead : s.ahead = ts ++ [s'.here] := by
      simpa [hnil] using (List.cons.inj hall.tokens).2
    obtain ⟨t, ht, heq⟩ := hall.spanFrom_stop hs (by simp) hstart
    exact .inr ⟨s.here, s'.here, (opened _ hahead).1, hend, t, ht, by rw [hstop, heq]⟩

/-- The body of a block read without errors is filled by its statements. -/
theorem filled_blockOf {tokens : List Token} {inner : Parser Stmt} {b : Block} (hs : Cleanly tokens s s')
    (hinner : Spans inner Stmt.span) (h : blockOf inner s = .ok b s') :
    ∃ ts, Filled [] ts b.body.parts ∧ b.body.Holds tokens ts := by
  obtain ⟨hs, hclean⟩ := hs
  obtain ⟨hk, hstmts, hspan⟩ := blockOf_eq_ok h
  have hnext := (passed_here hs.sealed (by simp [hk])).sealed hs.sealed
  obtain ⟨ts, hfilled, hend⟩ := filled_stmtsUpToBrace hinner hnext hstmts hclean
  have hstart : b.span.start = s.here.span.start := by rw [hspan, Cursor.spanFrom]
  exact ⟨ts, hfilled, holds_of_filled hs hk (by simp) hfilled hend (Nat.le_of_eq hstart) (Nat.le_refl _)
    (congrArg Span.stop hspan)⟩

/-- The body of a class read without errors is filled by its members, with semicolons between them. -/
theorem filled_classDecl {tokens : List Token} {decs : List Decorator} {isAbstract : Bool} {start : Nat}
    {c : ClassDecl} (hs : Cleanly tokens s s') (hword : s.here.kind = .keyword .class_)
    (hstart : start ≤ s.here.span.start) (h : classDecl decs isAbstract start s = .ok c s') :
    ∃ ts, Filled [.mark .semicolon] ts c.body.parts ∧ c.body.Holds tokens ts := by
  obtain ⟨hs, hclean⟩ := hs
  obtain ⟨s₁, s₂, s₃, s₄, s₅, hname, hangles, hbase, hheader, hk, hmembers, -, hspan, rfl⟩ := classDecl_eq_ok h
  have hword := passed_here hs.sealed (hword ▸ nofun)
  -- The name is a token of its own, so the brace comes after its end.
  obtain ⟨n, hpassed, hspan'⟩ := passed_identBy rfl (hword.sealed hs.sealed) hname
  obtain ⟨ts₂, hts₂⟩ := passed_of_ok hangles
  obtain ⟨ts₃, hts₃⟩ := passed_of_ok hbase
  obtain ⟨ts₄, hts₄⟩ := passed_of_ok hheader
  have hheader := (hts₂.trans hts₃).trans hts₄
  have hs₄ := hheader.on (hpassed.on (hword.on hs))
  have hnext := (passed_here hs₄.sealed (hk ▸ nofun)).sealed hs₄.sealed
  obtain ⟨ts, hfilled, hend⟩ := filled_members hnext hmembers hclean
  refine ⟨ts, hfilled, holds_of_filled hs₄ hk (by simp) hfilled hend ?_ ?_ (congrArg Span.stop hspan)⟩
  · have hle := (hpassed.trans hheader).stop_le (hword.on hs) n (by simp)
    rwa [hspan'] at hle
  · exact Nat.le_trans hstart (((hword.trans hpassed).trans hheader).start_le hs)

end Parser

/-! ## Source texts -/

/-- In a source text read without errors, the last token of the body of a class or of a block is the brace that matches
its opening brace, unless the body runs out, and then no brace closes it. -/
theorem body_closed_iff_not_runsOut (source : String) (hclean : (parse source).errors = []) :
    ∀ b ∈ (parse source).file.bodies, b.Closed (tokensOf source) ↔ ¬ b.RunsOut (tokensOf source) := by
  intro b hb
  have hor : b.Closed (tokensOf source) ∨ b.RunsOut (tokensOf source) := by
    rcases List.mem_append.mp hb with hb | hb
    · obtain ⟨c, hc, rfl⟩ := List.mem_map.mp hb
      obtain ⟨ts, -, hholds⟩ := SourceFile.forall_classes_of_parse hclean Parser.filled_classDecl c hc
      exact hholds.closed_or_runsOut
    · obtain ⟨block, hblock, rfl⟩ := List.mem_map.mp hb
      obtain ⟨ts, -, hholds⟩ := SourceFile.forall_blocks_of_parse hclean Parser.filled_blockOf block hblock
      exact hholds.closed_or_runsOut
  exact ⟨fun hclosed hout => hout.not_closed (follow_tokensOf source) hclosed, hor.resolve_right⟩

/-- A class that runs out after a method whose block is closed, as is the block in it. -/
def halfOpenSource : String := "class A \x7b f() \x7b \x7b \x7d \x7d g"

/-- In `halfOpenSource` the class runs out, and the body of the method and the block in it are closed. -/
theorem halfOpenSource_bodies :
    (parse halfOpenSource).errors = [] ∧ (parse halfOpenSource).file.bodies.map Body.stop = [23, 21, 19] ∧
      ∀ b ∈ (parse halfOpenSource).file.bodies,
        b.Closed (tokensOf halfOpenSource) ↔ ¬ b.RunsOut (tokensOf halfOpenSource) := by
  have hread : ((parse halfOpenSource).errors, (parse halfOpenSource).file.bodies.map Body.stop) = ([], [23, 21, 19]) := by
    decide +kernel
  obtain ⟨hclean, hstops⟩ := Prod.mk.inj hread
  exact ⟨hclean, hstops, body_closed_iff_not_runsOut _ hclean⟩

/-- A source text that ends in a comment inside the block of a method. -/
def unclosedSource : String := "class A \x7b f() \x7b /* \x7d \x7d"

/-- It is read without errors, and neither the class nor the block is closed. -/
theorem unclosedSource_not_closed :
    (parse unclosedSource).errors = [] ∧ (parse unclosedSource).file.bodies.map Body.stop = [15, 15] ∧
      ∀ b ∈ (parse unclosedSource).file.bodies, ¬ b.Closed (tokensOf unclosedSource) := by
  have hread : ((parse unclosedSource).errors, (parse unclosedSource).file.bodies.map Body.stop) = ([], [15, 15]) := by
    decide +kernel
  obtain ⟨hclean, hstops⟩ := Prod.mk.inj hread
  refine ⟨hclean, hstops, ?_⟩
  have hkinds : .mark .rbrace ∉ (tokensOf unclosedSource).map Token.kind := by decide +kernel
  rintro b - ⟨o, inner, c, rest, hopened, hc, -⟩
  exact hkinds (hc ▸ List.mem_map_of_mem (hopened.suffix.subset (by simp)))

end ContractCompiler
