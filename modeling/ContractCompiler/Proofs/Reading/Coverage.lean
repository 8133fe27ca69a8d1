import ContractCompiler.Proofs.Reading.Bodies

/-!
# Nothing is lost

In a source text read without errors every token but the last one lies in the span of one item, and of one only; and so it is
inside a class with its members, stray semicolons apart, and inside a block with its statements.
-/

namespace ContractCompiler

/-! ## How many spans a token lies in -/

instance (t : Token) (span : Span) : Decidable (t.Within span) := inferInstanceAs (Decidable (_ ∧ _))

/-- The number of spans in which the token lies. -/
def Token.coverage (t : Token) (spans : List Span) : Nat := spans.countP fun span => t.Within span

/-- A token outside all spans is not covered. -/
theorem Token.coverage_eq_zero {t : Token} {spans : List Span} (h : ∀ span ∈ spans, ¬ t.Within span) :
    t.coverage spans = 0 := by
  rw [coverage, List.countP_eq_zero]
  simpa using h

/-- Of the spans the first one counts if the token lies in it. -/
theorem Token.coverage_cons (t : Token) (span : Span) (spans : List Span) :
    t.coverage (span :: spans) = t.coverage spans + if t.Within span then 1 else 0 := by
  simp [coverage, List.countP_cons]

/-- The first tokens of a part and the tokens after it are told apart by its span. -/
theorem within_spanTo_iff {ts us : List Token} {first t : Token} (hts : Ascending (ts ++ us)) (hfirst : ts.head? = some first)
    (ht : t ∈ ts ++ us) (hlt : t.span.start < t.span.stop) : t.Within (spanTo first.span.start ts) ↔ t ∈ ts := by
  refine ⟨fun hwithin => ?_, within_spanTo hts.left hfirst⟩
  have hle := hwithin.2
  obtain ⟨last, hlast, hstop⟩ := spanTo_stop hts.left (List.mem_of_mem_head? hfirst)
  rcases List.mem_append.mp ht with ht | ht
  · exact ht
  · have := (List.pairwise_append.mp hts.2).2.2 last (List.mem_of_getLast? hlast) t ht
    omega

/-- A token among those that parts fill lies in exactly one of the parts, or it is a stray one and lies in none. -/
theorem Filled.coverage {strays : List TokenKind} {ts : List Token} {spans : List Span} (h : Filled strays ts spans)
    (hts : Ascending ts) (hlt : ∀ t ∈ ts, t.span.start < t.span.stop) :
    ∀ t ∈ ts, t.coverage spans = 1 ∨ t.kind ∈ strays ∧ t.coverage spans = 0 := by
  induction h with
  | nil => simp
  | @part ts us first spans hfirst hfilled ih =>
    intro t ht
    have hwithin := within_spanTo_iff hts hfirst ht (hlt t ht)
    rw [Token.coverage_cons]
    by_cases hmem : t ∈ ts
    · have hbefore : Ascending (t :: us) :=
        hts.sublist ((List.singleton_sublist.mpr hmem).append (List.Sublist.refl us))
      rw [Token.coverage_eq_zero (hfilled.not_within_of_before hbefore (hlt t ht)), if_pos (hwithin.mpr hmem)]
      exact .inl rfl
    · rw [if_neg (hmem ∘ hwithin.mp)]
      refine ih hts.right (fun t ht => hlt t (List.mem_append_right _ ht)) t ?_
      exact (List.mem_append.mp ht).resolve_left hmem
  | @stray stray us spans hstray hfilled ih =>
    refine List.forall_mem_cons.mpr ⟨.inr ⟨hstray, ?_⟩, ?_⟩
    · exact Token.coverage_eq_zero (hfilled.not_within_of_before hts (hlt stray List.mem_cons_self))
    · exact ih (hts.sublist (List.sublist_cons_self stray us)) fun t ht => hlt t (List.mem_cons_of_mem _ ht)

/-! ## Bodies -/

/-- The last element with a property splits a list in one way only. -/
theorem eq_of_append_cons_eq {α : Type} {P : α → Prop} {before before' inner inner' : List α} {o o' : α}
    (h : before ++ o :: inner = before' ++ o' :: inner') (ho : P o) (ho' : P o') (hinner : ∀ a ∈ inner, ¬ P a)
    (hinner' : ∀ a ∈ inner', ¬ P a) : inner = inner' := by
  rcases List.append_eq_append_iff.mp h with ⟨between, -, h⟩ | ⟨between, -, h⟩
  · cases between with
    | nil => exact (List.cons.inj h).2
    | cons _ between =>
      have hmem : o' ∈ inner := by
        rw [(List.cons.inj h).2]
        simp
      exact absurd ho' (hinner o' hmem)
  · cases between with
    | nil => exact (List.cons.inj h).2.symm
    | cons _ between =>
      have hmem : o ∈ inner' := by
        rw [(List.cons.inj h).2]
        simp
      exact absurd ho (hinner' o hmem)

namespace Token.Follow

variable {offset : Nat} {tokens : List Token}

/-- What is left of the tokens from a token on is known by where the token ends. -/
theorem eq_of_stop_eq (hfollow : Token.Follow offset tokens) {c c' : Token} {rest rest' : List Token}
    (h : c :: rest <:+ tokens) (h' : c' :: rest' <:+ tokens) (hk : c.kind ≠ .endOfInput) (hk' : c'.kind ≠ .endOfInput)
    (hstop : c.span.stop = c'.span.stop) : c :: rest = c' :: rest' := by
  -- A token further along ends later.
  have before : ∀ {a b : Token} {as bs : List Token}, a :: as <:+ tokens → b :: bs <:+ a :: as → b.kind ≠ .endOfInput →
      a.span.stop = b.span.stop → a :: as = b :: bs := by
    intro a b as bs ha hab hk hstop
    rcases List.suffix_cons_iff.mp hab with heq | hsuffix
    · exact heq.symm
    · have hmem := hsuffix.subset List.mem_cons_self
      have hle := List.rel_of_pairwise_cons (hfollow.pairwise.sublist ha.sublist) hmem
      have hlt := hfollow.start_lt_stop b (ha.subset (List.mem_cons_of_mem _ hmem)) hk
      omega
  rcases List.suffix_or_suffix_of_suffix h h' with hsuffix | hsuffix
  · exact (before h' hsuffix hk hstop.symm).symm
  · exact before h hsuffix hk' hstop

end Token.Follow

namespace Body

variable {tokens inner inner' rest : List Token} {b : Body} {o o' : Token}

/-- What comes after a body goes up to the end of the tokens. -/
theorem Opened.rest_suffix (h : b.Opened tokens o inner rest) : rest <:+ tokens :=
  (List.suffix_append (o :: inner) rest).trans (by simpa using h.suffix)

/-- What a body holds is known from where it ends. -/
theorem Opened.eq_inner (h : b.Opened tokens o inner rest) (h' : b.Opened tokens o' inner' rest) : inner = inner' := by
  obtain ⟨before, hbefore⟩ := h.suffix
  obtain ⟨before', hbefore'⟩ := h'.suffix
  have heq : before ++ o :: inner = before' ++ o' :: inner' := by
    apply List.append_cancel_right
    simpa using hbefore.trans hbefore'.symm
  exact eq_of_append_cons_eq heq h.hasBrace h'.hasBrace h.inner_free h'.inner_free

/-- A body holds one list of tokens. -/
theorem Holds.unique (hfollow : Token.Follow 0 tokens) (h : b.Holds tokens inner) (h' : b.Holds tokens inner') :
    inner = inner' := by
  rcases h with ⟨o, c, rest, hopened, hc, hbrace, hstop⟩ | ⟨o, last, hopened, hlast, hstop⟩
  · rcases h' with ⟨o', c', rest', hopened', hc', hbrace', hstop'⟩ | ⟨o', last', hopened', hlast', hstop'⟩
    · have heq := hfollow.eq_of_stop_eq hopened.rest_suffix hopened'.rest_suffix (by simp [hc]) (by simp [hc'])
        (hstop.trans hstop'.symm)
      exact hopened.eq_inner (heq ▸ hopened')
    · have hout : b.RunsOut tokens := ⟨o', inner', last', hopened', hlast', hstop'⟩
      exact absurd ⟨o, inner, c, rest, hopened, hc, hbrace, hstop⟩ (hout.not_closed hfollow)
  · rcases h' with ⟨o', c', rest', hopened', hc', hbrace', hstop'⟩ | ⟨o', last', hopened', -⟩
    · have hout : b.RunsOut tokens := ⟨o, inner, last, hopened, hlast, hstop⟩
      exact absurd ⟨o', inner', c', rest', hopened', hc', hbrace', hstop'⟩ (hout.not_closed hfollow)
    · have heq : [last] = [last'] := by
        rcases List.suffix_or_suffix_of_suffix hopened.rest_suffix hopened'.rest_suffix with hsuffix | hsuffix
        · exact hsuffix.eq_of_length rfl
        · exact (hsuffix.eq_of_length rfl).symm
      exact hopened.eq_inner (heq ▸ hopened')

/-- What a body holds comes before the end of the input. -/
theorem Opened.inner_sublist (h : b.Opened tokens o inner rest) (hrest : rest ≠ []) : inner.Sublist tokens.dropLast := by
  obtain ⟨before, rfl⟩ := h.suffix
  rw [← List.cons_append, ← List.append_assoc, List.dropLast_append_of_ne_nil hrest]
  exact ((List.sublist_cons_self o inner).trans (List.sublist_append_right before _)).trans (List.sublist_append_left _ _)

/-- A body holds no end of the input. -/
theorem Holds.sublist (h : b.Holds tokens inner) : inner.Sublist tokens.dropLast := by
  rcases h with ⟨o, c, rest, hopened, -⟩ | ⟨o, last, hopened, -⟩
  all_goals exact hopened.inner_sublist (by simp)

/-- Where parts fill a body, a token it holds lies in exactly one of the parts, or is a stray one. -/
theorem coverage_of_filled {strays : List TokenKind} (hfollow : Token.Follow 0 tokens)
    (h : ∃ ts, Filled strays ts b.parts ∧ b.Holds tokens ts) (hinner : b.Holds tokens inner) :
    ∀ t ∈ inner, t.coverage b.parts = 1 ∨ t.kind ∈ strays ∧ t.coverage b.parts = 0 := by
  obtain ⟨ts, hfilled, hholds⟩ := h
  obtain rfl := hholds.unique hfollow hinner
  have hsublist := hholds.sublist
  exact hfilled.coverage (hfollow.ascending.sublist hsublist) fun t ht => (hfollow.lt_stop t (hsublist.subset ht)).1

end Body

/-! ## Source texts -/

open ContractCompiler.Parser in
/-- The items of a file read without errors fill it up to the end of the input. -/
theorem filled_items {s s' : ParserState} {is : List Item} (hs : s.Sealed) (h : items s = .ok is s')
    (hclean : s'.errors = []) :
    ∃ ts, Filled [] ts (is.map Item.span) ∧ Passed s ts s' ∧ s'.here.kind = .endOfInput := by
  have hfilled : ∃ ts, Filled [] ts (is.map Item.span) ∧ BodyEnd [] s ts s' := by
    refine filled_of_rounds (by simp) (by simp) ?_ _ hs h hclean
    intro s s' r hs h hclean
    rw [run_atEnd] at h
    by_cases hend : s.here.kind = .endOfInput
    · rw [decide_eq_true hend, if_pos rfl] at h
      obtain ⟨rfl, rfl⟩ := pure_eq_ok.mp h
      exact .ended hend
    · rw [decide_eq_false hend, if_neg Bool.false_ne_true] at h
      exact bodyRound_of_attempt (covers_item hs hend) (fun _ => rfl) h hclean
  obtain ⟨ts, hts, ⟨c, hc, -⟩ | hend⟩ := hfilled
  · cases hc
  · exact ⟨ts, hts, hend⟩

/-- At the start nothing is behind the cursor. -/
theorem Cursor.behind_start (tokens : List Token) : (Cursor.start tokens).behind = [] := by
  cases tokens <;> rfl

/-- Every token but the end of the input lies in exactly one item. -/
theorem item_coverage_of_parse {source : String} (hclean : (parse source).errors = []) :
    ∀ t ∈ tokensOf source, t.kind ≠ .endOfInput → t.coverage ((parse source).file.items.map Item.span) = 1 := by
  obtain ⟨s', hitems, hs'⟩ := items_of_parse hclean
  have hon : ParserState.On (tokensOf source) ⟨Cursor.start (tokensOf source), [], []⟩ := on_start
  obtain ⟨ts, hfilled, hpassed, hend⟩ := filled_items hon.sealed hitems hs'
  have htokens : tokensOf source = ts ++ [s'.here] := by
    have hnil := (hpassed.on hon).ahead_eq_nil hend
    have hall := hon.tokens_eq
    rwa [hpassed.tokens, hnil, Cursor.behind_start] at hall
  have hfollow := follow_tokensOf source
  have hdrop : (tokensOf source).dropLast = ts := by rw [htokens, List.dropLast_concat]
  intro t ht hk
  have hmem : t ∈ ts := by
    rw [htokens] at ht
    refine (List.mem_append.mp ht).resolve_right fun h => hk ?_
    rw [List.mem_singleton.mp h, hend]
  have hcover := hfilled.coverage (hdrop ▸ hfollow.ascending) (fun t ht => (hfollow.lt_stop t (hdrop ▸ ht)).1) t hmem
  simpa using hcover

/-- A source text read without errors loses nothing. Every token but the end of the input lies in the span of exactly one
item. A class and a block hold the tokens between their braces, or up to the end of the input if they run out; of those every
one lies in the span of exactly one statement of the block, or of exactly one member of the class unless it is a semicolon
between members. -/
theorem accepted_source_is_covered (source : String) (hclean : (parse source).errors = []) :
    (∀ t ∈ tokensOf source, t.kind ≠ .endOfInput → t.coverage ((parse source).file.items.map Item.span) = 1) ∧
    (∀ c ∈ (parse source).file.classes, (∃ inner, c.body.Holds (tokensOf source) inner) ∧
      ∀ inner, c.body.Holds (tokensOf source) inner → ∀ t ∈ inner,
        t.coverage (c.members.map Member.span) = 1 ∨
          t.kind = .mark .semicolon ∧ t.coverage (c.members.map Member.span) = 0) ∧
    ∀ b ∈ (parse source).file.blocks, (∃ inner, b.body.Holds (tokensOf source) inner) ∧
      ∀ inner, b.body.Holds (tokensOf source) inner → ∀ t ∈ inner, t.coverage (b.stmts.map Stmt.span) = 1 := by
  have hfollow := follow_tokensOf source
  refine ⟨item_coverage_of_parse hclean, fun c hc => ?_, fun b hb => ?_⟩
  · have hfilled := SourceFile.forall_classes_of_parse hclean Parser.filled_classDecl c hc
    refine ⟨hfilled.imp fun _ h => h.2, fun inner hinner t ht => ?_⟩
    simpa [ClassDecl.body] using Body.coverage_of_filled hfollow hfilled hinner t ht
  · have hfilled := SourceFile.forall_blocks_of_parse hclean Parser.filled_blockOf b hb
    refine ⟨hfilled.imp fun _ h => h.2, fun inner hinner t ht => ?_⟩
    simpa [Block.body] using Body.coverage_of_filled hfollow hfilled hinner t ht

/-- Two items, the second one a class with semicolons between its members. -/
def strayedSource : String := "import 'a'; class A \x7b ; f() \x7b x; \x7d ; g \x7d"

/-- Every token of `strayedSource` lies in one of its two items, and the class holds its tokens. -/
theorem strayedSource_is_covered :
    (parse strayedSource).errors = [] ∧ (parse strayedSource).file.items.map Item.span = [⟨0, 11⟩, ⟨12, 40⟩] ∧
      (∀ t ∈ tokensOf strayedSource, t.kind ≠ .endOfInput →
        t.coverage ((parse strayedSource).file.items.map Item.span) = 1) ∧
      ∀ c ∈ (parse strayedSource).file.classes, ∃ inner, c.body.Holds (tokensOf strayedSource) inner := by
  have hread : ((parse strayedSource).errors, (parse strayedSource).file.items.map Item.span) =
      ([], [⟨0, 11⟩, ⟨12, 40⟩]) := by decide +kernel
  obtain ⟨hclean, hspans⟩ := Prod.mk.inj hread
  obtain ⟨hitems, hclasses, -⟩ := accepted_source_is_covered strayedSource hclean
  exact ⟨hclean, hspans, hitems, fun c hc => (hclasses c hc).1⟩

end ContractCompiler
