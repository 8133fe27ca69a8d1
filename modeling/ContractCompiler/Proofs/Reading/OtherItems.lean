import ContractCompiler.Proofs.Printing.Spelled
import ContractCompiler.Proofs.Reading.Accepted

/-!
# Constructs that are no part of the language

What stands at the top level of a file and is neither an import nor a class is read as one item whose text is not looked
into. It goes up to the first semicolon outside all brackets or the first brace that leaves no bracket open, and a semicolon
right after that brace counts to it. Whatever stands inside its brackets, classes and imports included, is part of it.
-/

namespace ContractCompiler

/-! ## Brackets -/

namespace TokenKind

/-- The kind of the bracket that closes an opening one. -/
def closer? : TokenKind → Option TokenKind
  | .mark .lparen => some (.mark .rparen)
  | .mark .lbrace => some (.mark .rbrace)
  | .mark .lbracket => some (.mark .rbracket)
  | _ => none

/-- Whether the token is a closing bracket. -/
def isCloser : TokenKind → Bool
  | .mark .rparen | .mark .rbrace | .mark .rbracket => true
  | _ => false

/-- What closes a bracket is a closing bracket, and opens none. -/
theorem isCloser_of_closer? {o c : TokenKind} (h : o.closer? = some c) : c.isCloser = true ∧ c.closer? = none := by
  unfold closer? at h
  split at h <;> cases h <;> exact ⟨rfl, rfl⟩

/-- What opens a bracket closes none. -/
theorem not_isCloser_of_closer? {o c : TokenKind} (h : o.closer? = some c) : o.isCloser = false := by
  unfold closer? at h
  split at h <;> cases h <;> rfl

/-- What opens a bracket is not the end of the input. -/
theorem ne_end_of_closer? {o c : TokenKind} (h : o.closer? = some c) : o ≠ .endOfInput := by
  rintro rfl
  cases h

theorem ne_end_of_isCloser {c : TokenKind} (h : c.isCloser = true) : c ≠ .endOfInput := by
  rintro rfl
  cases h

end TokenKind

/-- Round, curly and square brackets are properly nested in the tokens, none of which is the end of the input. -/
inductive Bracketed : List Token → Prop where
  | nil : Bracketed []
  | plain {t : Token} {ts : List Token} : t.kind.closer? = none → t.kind.isCloser = false → t.kind ≠ .endOfInput →
      Bracketed ts → Bracketed (t :: ts)
  | group {o c : Token} {ts us : List Token} : o.kind.closer? = some c.kind → Bracketed ts → Bracketed us →
      Bracketed (o :: (ts ++ c :: us))

/-- How many of the tokens are opening brackets. -/
def openers (ts : List Token) : Nat := ts.countP fun t => t.kind.closer?.isSome

/-- How many of the tokens are closing brackets. -/
def closers (ts : List Token) : Nat := ts.countP fun t => t.kind.isCloser

/-- How many brackets are open behind the tokens. -/
def bracketDepth (ts : List Token) : Nat := openers ts - closers ts

namespace Bracketed

variable {ts : List Token}

/-- Nested brackets close all they open. -/
theorem closers_eq (h : Bracketed ts) : closers ts = openers ts := by
  unfold closers openers
  induction h with
  | nil => rfl
  | plain hopen hclose _ _ ih => simp [hopen, hclose, ih]
  | @group o c ts us hclose _ _ ihts ihus =>
    obtain ⟨hc, hc'⟩ := TokenKind.isCloser_of_closer? hclose
    have ho := TokenKind.not_isCloser_of_closer? hclose
    simp only [List.countP_cons, List.countP_append, ihts, ihus, hc, hc', ho, hclose, Option.isSome_none, Option.isSome_some]
    simp
    omega

/-- Behind properly nested tokens the depth is counted anew. -/
theorem depth_append (h : Bracketed ts) (us : List Token) : bracketDepth (ts ++ us) = bracketDepth us := by
  have hcount := h.closers_eq
  unfold bracketDepth closers openers at *
  rw [List.countP_append, List.countP_append]
  omega

end Bracketed

/-! ## The tokens of an item -/

/-- The token `t`, with `before` in front of it, ends an item: it is a semicolon outside all brackets, or a brace that leaves no
bracket open. -/
def EndsItem (before : List Token) (t : Token) : Prop :=
  (t.kind = .mark .semicolon ∧ bracketDepth before = 0) ∨ (t.kind = .mark .rbrace ∧ bracketDepth (before ++ [t]) = 0)

instance (before : List Token) (t : Token) : Decidable (EndsItem before t) := inferInstanceAs (Decidable (_ ∨ _))

/-- The kinds of the tokens an import or a class can start with. -/
def itemStarts : List TokenKind :=
  [.mark .atSign, .keyword .export_, .keyword .import_, .keyword .class_, .keyword .abstract]

/-- The tokens make up a construct that is neither an import nor a class. -/
structure OtherItem (ts : List Token) : Prop where
  nested : Bracketed ts
  /-- No token outside all brackets, and so neither the first one, starts an import or a class. -/
  outside : ∀ before t after, ts = before ++ t :: after → bracketDepth before = 0 → t.kind ∉ itemStarts
  /-- The last token ends the item. -/
  ends : ∃ before t, ts = before ++ [t] ∧ EndsItem before t
  /-- No token before the last one ends it. -/
  first : ∀ before t after, ts = before ++ t :: after → EndsItem before t → after = []

/-- The tokens of an item before `next`: a semicolon right after its closing brace counts to it. -/
def withSemicolon (ts : List Token) (next : Token) : List Token :=
  if ts.getLast?.map Token.kind = some (.mark .rbrace) ∧ next.kind = .mark .semicolon then ts ++ [next] else ts

namespace OtherItem

variable {ts us : List Token}

/-- What holds at each position of a list holds wherever the list is split. -/
theorem of_positions {P : List Token → Token → List Token → Prop}
    (h : ∀ i : Fin ts.length, P (ts.take i) (ts.get i) (ts.drop (i + 1))) :
    ∀ before t after, ts = before ++ t :: after → P before t after := by
  rintro before t after rfl
  simpa using h ⟨before.length, by simp⟩

/-- An item has a token, its last one. -/
theorem ne_nil (h : OtherItem ts) : ts ≠ [] := by
  obtain ⟨before, t, rfl, -⟩ := h.ends
  simp

/-- What is left of an item behind properly nested tokens of which the last one cannot end it. -/
theorem drop (h : OtherItem (ts ++ us)) (hts : Bracketed ts) (hus : Bracketed us)
    (hlast : ∀ t ∈ ts.getLast?, t.kind ≠ .mark .semicolon ∧ t.kind ≠ .mark .rbrace) : OtherItem us where
  nested := hus
  outside before t after heq hdepth := by
    refine h.outside (ts ++ before) t after (by rw [heq, List.append_assoc]) ?_
    rw [hts.depth_append, hdepth]
  ends := by
    obtain ⟨before, t, heq, hends⟩ := h.ends
    rcases List.eq_nil_or_concat us with rfl | ⟨before', t', rfl⟩
    · rw [List.append_nil] at heq
      obtain ⟨hsemicolon, hbrace⟩ := hlast t (by simp [heq])
      rcases hends with ⟨hk, -⟩ | ⟨hk, -⟩
      · exact absurd hk hsemicolon
      · exact absurd hk hbrace
    · simp only [List.concat_eq_append] at heq ⊢
      rw [← List.append_assoc] at heq
      obtain ⟨rfl, ht⟩ := List.append_inj' heq rfl
      cases ht
      refine ⟨before', t, rfl, ?_⟩
      simpa only [EndsItem, List.append_assoc, hts.depth_append] using hends
  first before t after heq hends := by
    refine h.first (ts ++ before) t after (by rw [heq, List.append_assoc]) ?_
    simpa only [EndsItem, List.append_assoc, hts.depth_append] using hends

end OtherItem

/-! ## Skipping an item -/

namespace Cursor

variable {d : Nat} {k : TokenKind}

/-- What is not among `itemStarts` starts no item. -/
theorem startsItem_eq_false (h : k ∉ itemStarts) : startsItem k = false := by
  unfold startsItem
  split
  all_goals simp [itemStarts] at h
  rfl

/-- An opening bracket is taken, and one more is open behind it. -/
theorem otherTake_opener {c : TokenKind} (h : k.closer? = some c) : otherTake d k = .take (.within (d + 1)) := by
  unfold TokenKind.closer? at h
  split at h <;> cases h <;> rfl

/-- A closing bracket with others open around it. -/
theorem otherTake_closer (h : k.isCloser = true) : otherTake (d + 2) k = .take (.within (d + 1)) := by
  unfold TokenKind.isCloser at h
  split at h
  · rfl
  · rw [otherTake, if_neg (by omega)]
    rfl
  · rfl
  · cases h

/-- The last open bracket is closed, and it is no brace. -/
theorem otherTake_last_closer (h : k.isCloser = true) (hbrace : k ≠ .mark .rbrace) : otherTake 1 k = .take (.within 0) := by
  unfold TokenKind.isCloser at h
  split at h
  · rfl
  · exact absurd rfl hbrace
  · rfl
  · cases h

/-- Any other token is taken and leaves the brackets as they are, except for a semicolon outside all of them. -/
theorem otherTake_plain (h : k.closer? = none) (h' : k.isCloser = false) (hopen : k = .mark .semicolon → d ≠ 0) :
    otherTake d k = .take (.within d) := by
  fun_cases otherTake d k with
  | case1 | case2 | case3 => cases h
  | case4 | case5 | case6 | case7 => cases h'
  | case8 hd => exact absurd hd (hopen rfl)
  | case9 | case10 => rfl

/-- Outside all brackets, a token that starts no item of its own is taken. -/
theorem otherStep_outside {state : OtherState} (hstate : state = .fresh ∨ state = .within 0) (h : startsItem k = false) :
    otherStep state k = otherTake 0 k := by
  rcases hstate with rfl | rfl
  · rfl
  · rw [otherStep, h]
    rfl

/-- Inside brackets any token is taken. -/
theorem otherStep_inside : otherStep (.within (d + 1)) k = otherTake (d + 1) k := by
  rw [otherStep, if_neg (by simp)]

end Cursor

/-- A move without errors passes the tokens. -/
theorem Moved.passed {s s' : ParserState} {ts : List Token} (h : Moved s ts s') : Passed s ts s' :=
  ⟨h.behind, h.tokens, h.errors ▸ List.prefix_refl _⟩

/-- Moves one after the other make up a move. -/
theorem Moved.trans {s s₁ s' : ParserState} {ts us : List Token} (h : Moved s ts s₁) (h' : Moved s₁ us s') :
    Moved s (ts ++ us) s' := by
  have hpassed := h.passed.trans h'.passed
  exact ⟨hpassed.behind, hpassed.tokens, h'.errors.trans h.errors, h'.journal.trans h.journal⟩

namespace Parser

/-- Skipping from `s` in one state comes to `s'` in another, and goes on from there. -/
def SkipsTo {σ : Type} (step : σ → TokenKind → Skip σ) (state : σ) (s : ParserState) (state' : σ) (s' : ParserState) : Prop :=
  ∀ us s'', Skips step state' s' us s'' → ∃ ts, Skips step state s ts s''

namespace SkipsTo

variable {σ : Type} {step : σ → TokenKind → Skip σ} {state state₁ state' : σ} {s s₁ s' : ParserState}

/-- Skipping may stay where it is. -/
theorem refl : SkipsTo step state s state s := fun us _ h => ⟨us, h⟩

/-- Skipping goes on from where it came to. -/
theorem trans (h : SkipsTo step state s state₁ s₁) (h' : SkipsTo step state₁ s₁ state' s') :
    SkipsTo step state s state' s' := by
  intro us s'' hrest
  obtain ⟨vs, hrest⟩ := h' us s'' hrest
  exact h vs s'' hrest

/-- A token that is taken. -/
theorem token {t : Token} {ts : List Token} (h : Moved s (t :: ts) s') (hend : t.kind ≠ .endOfInput)
    (hstep : step state t.kind = .take state') : SkipsTo step state s state' s.next := by
  rw [← h.here] at hend hstep
  exact fun us s'' hrest => ⟨_, .took hend hstep hrest⟩

end SkipsTo

variable {s s' : ParserState} {ts : List Token}

/-- Inside brackets, properly nested tokens are taken and leave as many brackets open as before. -/
theorem skipsTo_bracketed (h : Bracketed ts) : ∀ {s s' : ParserState} {d : Nat}, Moved s ts s' →
    SkipsTo Cursor.otherStep (.within (d + 1)) s (.within (d + 1)) s' := by
  induction h with
  | nil =>
    intro s s' d hmoved
    rw [hmoved.eq_of_nil]
    exact .refl
  | plain hopen hclose hend _ ih =>
    intro s s' d hmoved
    refine (SkipsTo.token hmoved hend ?_).trans (ih (hmoved.next hend))
    rw [Cursor.otherStep_inside, Cursor.otherTake_plain hopen hclose (fun _ => Nat.succ_ne_zero d)]
  | @group o c ts us hclose _ _ ihts ihus =>
    intro s s' d hmoved
    have ho := TokenKind.ne_end_of_closer? hclose
    obtain ⟨hc, -⟩ := TokenKind.isCloser_of_closer? hclose
    have hc' := TokenKind.ne_end_of_isCloser hc
    obtain ⟨s₁, hts, hrest⟩ := (hmoved.next ho).split
    have hopened : SkipsTo Cursor.otherStep (.within (d + 1)) s (.within (d + 2)) s.next :=
      .token hmoved ho (by rw [Cursor.otherStep_inside, Cursor.otherTake_opener hclose])
    have hclosed : SkipsTo Cursor.otherStep (.within (d + 2)) s₁ (.within (d + 1)) s₁.next :=
      .token hrest hc' (by rw [Cursor.otherStep_inside, Cursor.otherTake_closer hc])
    exact ((hopened.trans (ihts hts)).trans hclosed).trans (ihus (hrest.next hc'))

/-- A token that ends the skipping. -/
theorem skips_of_last {σ : Type} {step : σ → TokenKind → Skip σ} {state : σ} {t : Token} (h : Moved s [t] s')
    (hend : t.kind ≠ .endOfInput) (hstep : step state t.kind = .last) : ∃ ts, Skips step state s ts s' := by
  rw [(h.next hend).eq_of_nil]
  rw [← h.here] at hend hstep
  exact ⟨_, .last hend hstep⟩

/-- An item has been taken from `s` to `s'`, up to the token that ends it: a semicolon stops the skipping, and behind a brace a
semicolon is still waited for. -/
def EndsAt (ts : List Token) (state : Cursor.OtherState) (s s' : ParserState) : Prop :=
  (ts.getLast?.map Token.kind = some (.mark .semicolon) ∧
    ∃ us, Skips Cursor.otherStep state s us s') ∨
  (ts.getLast?.map Token.kind = some (.mark .rbrace) ∧ SkipsTo Cursor.otherStep state s .closed s')

/-- Tokens that were taken before belong to the item. -/
theorem SkipsTo.before {state state₁ : Cursor.OtherState} {s₁ : ParserState} {us : List Token}
    (h : SkipsTo Cursor.otherStep state s state₁ s₁) (hne : us ≠ []) (h' : EndsAt us state₁ s₁ s') (ts : List Token) :
    EndsAt (ts ++ us) state s s' := by
  unfold EndsAt
  rw [List.getLast?_append_of_ne_nil _ hne]
  rcases h' with ⟨hlast, hrun⟩ | ⟨hlast, hrun⟩
  · obtain ⟨vs, hrun⟩ := hrun
    exact .inl ⟨hlast, h vs s' hrun⟩
  · exact .inr ⟨hlast, h.trans hrun⟩

/-- Outside all brackets, the tokens of an item are taken up to its end. -/
theorem endsAt_of_moved (h : OtherItem ts) : ∀ {s : ParserState} {state : Cursor.OtherState},
    state = .fresh ∨ state = .within 0 → Moved s ts s' → EndsAt ts state s s' := by
  have hnested := h.nested
  induction hnested with
  | nil =>
    obtain ⟨before, t, heq, -⟩ := h.ends
    simp at heq
  | @plain t ts hopen hclose hend hts ih =>
    intro s state hstate hmoved
    have hstep : Cursor.otherStep state t.kind = Cursor.otherTake 0 t.kind :=
      Cursor.otherStep_outside hstate (Cursor.startsItem_eq_false (h.outside [] t ts rfl rfl))
    by_cases hk : t.kind = .mark .semicolon
    · obtain rfl : ts = [] := h.first [] t ts rfl (.inl ⟨hk, rfl⟩)
      refine .inl ⟨by simp [hk], skips_of_last hmoved hend ?_⟩
      rw [hstep, hk]
      rfl
    · have hbrace : t.kind ≠ .mark .rbrace := by
        intro heq
        rw [heq] at hclose
        cases hclose
      have hfirst : Bracketed [t] := .plain hopen hclose hend .nil
      have hrest : OtherItem ts := OtherItem.drop h hfirst hts (by simp [hk, hbrace])
      have htaken : SkipsTo Cursor.otherStep state s (.within 0) s.next :=
        .token hmoved hend (by rw [hstep, Cursor.otherTake_plain hopen hclose fun heq => absurd heq hk])
      exact htaken.before hrest.ne_nil (ih hrest (.inr rfl) (hmoved.next hend)) [t]
  | @group o c ts us hclose hts hus _ ih =>
    intro s state hstate hmoved
    have ho := TokenKind.ne_end_of_closer? hclose
    obtain ⟨hc, -⟩ := TokenKind.isCloser_of_closer? hclose
    have hc' := TokenKind.ne_end_of_isCloser hc
    obtain ⟨s₁, hinner, hrest⟩ := (hmoved.next ho).split
    have hstep : Cursor.otherStep state o.kind = Cursor.otherTake 0 o.kind :=
      Cursor.otherStep_outside hstate (Cursor.startsItem_eq_false (h.outside [] o _ rfl rfl))
    have hopened : SkipsTo Cursor.otherStep state s (.within 1) s.next :=
      .token hmoved ho (by rw [hstep, Cursor.otherTake_opener hclose])
    have hclosing := hopened.trans (skipsTo_bracketed hts hinner)
    have hgroup : Bracketed (o :: (ts ++ [c])) := .group hclose hts .nil
    have hlast : (o :: (ts ++ [c])).getLast? = some c := List.getLast?_concat (l := o :: ts)
    have hsplit : o :: (ts ++ c :: us) = o :: (ts ++ [c]) ++ us := by simp
    by_cases hbrace : c.kind = .mark .rbrace
    · have hdepth : bracketDepth (o :: ts ++ [c]) = 0 := by
        rw [← List.append_nil (o :: ts ++ [c])]
        exact hgroup.depth_append []
      obtain rfl : us = [] := h.first (o :: ts) c us rfl (.inr ⟨hbrace, hdepth⟩)
      have hclosed : SkipsTo Cursor.otherStep (.within 1) s₁ .closed s₁.next :=
        .token hrest hc' (by rw [hbrace]; rfl)
      rw [(hrest.next hc').eq_of_nil]
      exact .inr ⟨by rw [hlast, Option.map_some, hbrace], hclosing.trans hclosed⟩
    · have hsemicolon : c.kind ≠ .mark .semicolon := by
        intro heq
        rw [heq] at hc
        cases hc
      rw [hsplit] at h ⊢
      have hrest' : OtherItem us := h.drop hgroup hus (by simp [hlast, hbrace, hsemicolon])
      have hclosed : SkipsTo Cursor.otherStep (.within 1) s₁ (.within 0) s₁.next :=
        .token hrest hc' (Cursor.otherTake_last_closer hc hbrace)
      exact (hclosing.trans hclosed).before hrest'.ne_nil (ih hrest' (.inr rfl) (hrest.next hc')) _

/-! ## Reading an item -/

/-- One token is moved over. -/
theorem moved_here (hs : s.Sealed) (hk : s.here.kind ≠ .endOfInput) : Moved s [s.here] s.next := by
  have hpassed := passed_here hs hk
  exact ⟨hpassed.behind, hpassed.tokens, rfl, rfl⟩

/-- Skipping an item moves over its tokens. -/
theorem skip_other {s₁ : ParserState} (hs : s.Sealed) (h : OtherItem ts) (hmoved : Moved s ts s₁) :
    ∃ s', skip Cursor.otherStep .fresh s = .ok () s' ∧ Moved s (withSemicolon ts s₁.here) s' := by
  rcases endsAt_of_moved h (.inl rfl) hmoved with ⟨hlast, us, hskips⟩ | ⟨hlast, hskips⟩
  · refine ⟨s₁, skip_of_skips hs hskips, ?_⟩
    simpa [withSemicolon, hlast] using hmoved
  · by_cases hk : s₁.here.kind = .mark .semicolon
    · have hend : s₁.here.kind ≠ .endOfInput := by simp [hk]
      have hstep : Cursor.otherStep .closed s₁.here.kind = .last := by rw [hk]; rfl
      obtain ⟨us, hrest⟩ := hskips _ _ (.last hend hstep)
      refine ⟨s₁.next, skip_of_skips hs hrest, ?_⟩
      rw [withSemicolon, if_pos ⟨hlast, hk⟩]
      exact hmoved.trans (moved_here (hmoved.passed.sealed hs) hend)
    · have hleave : Cursor.otherStep .closed s₁.here.kind = .leave := by
        unfold Cursor.otherStep
        split <;> simp_all
      have hstay : Skips Cursor.otherStep .closed s₁ [] s₁ := by
        by_cases hend : s₁.here.kind = .endOfInput
        · exact .ended hend
        · exact .left hend hleave
      obtain ⟨us, hrest⟩ := hskips _ _ hstay
      refine ⟨s₁, skip_of_skips hs hrest, ?_⟩
      rwa [withSemicolon, if_neg fun hboth => hk hboth.2]

/-- Without `@` there are no decorators. -/
theorem decorators_of_ne (h : s.here.kind ≠ .mark .atSign) : decorators s = .ok [] s := by
  rw [decorators, collect, run_bounded, collectUpTo]
  refine (bind_of_ok (?_ : _ = EStateM.Result.ok ([], false) s)).trans rfl
  rw [run_here, run_accept, if_neg h]
  rfl

/-- Where neither an import nor a class starts, what comes is skipped. -/
theorem item_of_skip {u : Unit} (h : Cursor.startsItem s.here.kind = false) (hskip : skip Cursor.otherStep .fresh s = .ok u s') :
    item s = .ok ⟨false, .other, s'.spanFrom s.here.span.start⟩ s' := by
  have hdecs : decorators s = .ok [] s := by
    refine decorators_of_ne fun hk => ?_
    rw [hk] at h
    cases h
  have hexport : s.here.kind ≠ .keyword .export_ := by
    intro hk
    rw [hk] at h
    cases h
  rw [item, run_here, bind_of_ok hdecs]
  unfold acceptWord
  rw [run_acceptKind, if_neg hexport]
  dsimp only
  rw [if_neg Bool.false_ne_true, run_kindAt, run_here]
  generalize s.here.kind = k at h
  split
  · cases h
  · cases h
  · cases h
  · exact bind_of_ok hskip

/-- With a semicolon an item still has a token. -/
theorem withSemicolon_ne_nil {next : Token} (h : ts ≠ []) : withSemicolon ts next ≠ [] := by
  unfold withSemicolon
  split
  · simp
  · exact h

/-- A construct that is neither an import nor a class is read as one item. The item spans exactly its tokens, the cursor stands
behind them, and nothing is recorded, whatever stands inside the brackets. -/
theorem item_of_otherItem {next : Token} {rest : List Token} (hs : s.Sealed) (hts : OtherItem ts)
    (htokens : s.here :: s.ahead = ts ++ next :: rest) :
    ∃ last span s', (withSemicolon ts next).getLast? = some last ∧ item s = .ok ⟨false, .other, span⟩ s' ∧
      Moved s (withSemicolon ts next) s' ∧ span = ⟨s.here.span.start, max last.span.stop s.here.span.start⟩ ∧
        (s.here.span.start ≤ last.span.stop → span = ⟨s.here.span.start, last.span.stop⟩) := by
  have hmoved : Moved s ts { s with behind := ts.reverse ++ s.behind, here := next, ahead := rest } :=
    ⟨rfl, htokens, rfl, rfl⟩
  obtain ⟨s', hskip, hmoved'⟩ := skip_other hs hts hmoved
  have hstart : Cursor.startsItem s.here.kind = false := by
    obtain ⟨t, us, rfl⟩ := List.exists_cons_of_ne_nil hts.ne_nil
    rw [hmoved.here]
    exact Cursor.startsItem_eq_false (hts.outside [] t us rfl rfl)
  have hne : withSemicolon ts next ≠ [] := withSemicolon_ne_nil hts.ne_nil
  have hlast := List.getLast?_eq_some_getLast hne
  have hspan : s'.spanFrom s.here.span.start =
      ⟨s.here.span.start, max ((withSemicolon ts next).getLast hne).span.stop s.here.span.start⟩ := by
    rw [hmoved'.passed.spanFrom_eq hne, spanTo, hlast]
    rfl
  refine ⟨_, _, s', hlast, item_of_skip hstart hskip, hmoved', hspan, fun hordered => ?_⟩
  rw [hspan, max_eq_left hordered]

/-- A function with a class in its braces, and a class behind it. -/
def nestedClassSource : String := "f() \x7b class B \x7b \x7d \x7d; class C \x7b \x7d"

/-- The tokens of the function in `nestedClassSource`. -/
def nestedClassTokens : List Token :=
  [⟨.ident "f", ⟨0, 1⟩, false⟩, ⟨.mark .lparen, ⟨1, 2⟩, false⟩, ⟨.mark .rparen, ⟨2, 3⟩, false⟩,
    ⟨.mark .lbrace, ⟨4, 5⟩, false⟩, ⟨.keyword .class_, ⟨6, 11⟩, false⟩, ⟨.ident "B", ⟨12, 13⟩, false⟩,
    ⟨.mark .lbrace, ⟨14, 15⟩, false⟩, ⟨.mark .rbrace, ⟨16, 17⟩, false⟩, ⟨.mark .rbrace, ⟨18, 19⟩, false⟩]

/-- The tokens behind the function. -/
def nestedClassRest : List Token :=
  [⟨.keyword .class_, ⟨21, 26⟩, false⟩, ⟨.ident "C", ⟨27, 28⟩, false⟩, ⟨.mark .lbrace, ⟨29, 30⟩, false⟩,
    ⟨.mark .rbrace, ⟨31, 32⟩, false⟩, ⟨.endOfInput, ⟨32, 32⟩, false⟩]

/-- A class in the braces of a function is skipped with it, and so is the semicolon behind them. -/
theorem item_skips_nested_class :
    ∃ s', item ⟨Cursor.start (tokensOf nestedClassSource), [], []⟩ = .ok ⟨false, .other, ⟨0, 20⟩⟩ s' ∧
      s'.errors = [] ∧ s'.here.kind = .keyword .class_ ∧ s'.ahead.length = 4 := by
  let next : Token := ⟨.mark .semicolon, ⟨19, 20⟩, false⟩
  have htokens : (Cursor.start (tokensOf nestedClassSource)).here :: (Cursor.start (tokensOf nestedClassSource)).ahead =
      nestedClassTokens ++ next :: nestedClassRest := by
    decide +kernel
  have hinner : Bracketed [⟨.keyword .class_, ⟨6, 11⟩, false⟩, ⟨.ident "B", ⟨12, 13⟩, false⟩,
      ⟨.mark .lbrace, ⟨14, 15⟩, false⟩, ⟨.mark .rbrace, ⟨16, 17⟩, false⟩] :=
    .plain rfl rfl (by decide) (.plain rfl rfl (by decide) (.group rfl .nil .nil))
  have htaken : OtherItem nestedClassTokens :=
    { nested := .plain rfl rfl (by decide) (.group rfl .nil (.group rfl hinner .nil))
      outside := OtherItem.of_positions (by decide)
      ends := ⟨nestedClassTokens.dropLast, nestedClassTokens.getLast (by decide), by decide, by decide⟩
      first := OtherItem.of_positions (by decide) }
  obtain ⟨last, span, s', hlast, hitem, hmoved, -, hspan⟩ := item_of_otherItem on_start.sealed htaken htokens
  have hwith : withSemicolon nestedClassTokens next = nestedClassTokens ++ [next] := if_pos (by decide)
  rw [hwith, List.getLast?_concat, Option.some_inj] at hlast
  have hrest : nestedClassTokens ++ [next] ++ nestedClassRest = nestedClassTokens ++ [next] ++ s'.here :: s'.ahead := by
    rw [← hwith, ← hmoved.tokens, htokens, hwith, List.append_assoc]
    rfl
  have hleft := List.cons.inj (List.append_cancel_left hrest)
  rw [← hlast] at hspan
  have hordered : (Cursor.start (tokensOf nestedClassSource)).here.span.start = 0 := by decide +kernel
  have hspan' := hspan (by rw [hordered]; decide)
  rw [hordered] at hspan'
  rw [hspan'] at hitem
  exact ⟨s', hitem, hmoved.errors, by rw [← hleft.1], by rw [← hleft.2]; rfl⟩

end Parser

end ContractCompiler
