import ContractCompiler.Proofs.Token.Boundaries
import ContractCompiler.Proofs.Token.Order

/-!
# Tokens tile the text

A source text is its tokens and what stands between them: blanks and comments before each token, then the text that the
token is spelled by, and nothing is left over. `Tiles before cs ts` says this of the text `cs` behind the text `before`, token
after token; `Tiling source ts` says what follows for a source text as a whole.
-/

namespace ContractCompiler

open Text

/-! ## Longest marks -/

namespace Mark

/-- The longer marks are tried first. -/
theorem pairwise_longestFirst : longestFirst.Pairwise fun a b => b.chars.length ≤ a.chars.length := by
  decide

/-- No mark that starts the text is longer than the one found there. -/
theorem length_le_of_longest? {cs : List Char} {m other : Mark} (h : longest? cs = some m) (hother : other.starts cs = true) :
    other.chars.length ≤ m.chars.length := by
  obtain ⟨-, front, back, hlist, hfront⟩ := List.find?_eq_some_iff_append.mp h
  have hmem := mem_longestFirst other
  have hsorted := pairwise_longestFirst
  rw [hlist] at hmem hsorted
  rcases List.mem_append.mp hmem with hmem | hmem
  · have := hfront other hmem
    rw [hother] at this
    cases this
  rcases List.mem_cons.mp hmem with rfl | hmem
  · exact Nat.le_refl _
  · exact List.rel_of_pairwise_cons (List.pairwise_append.mp hsorted).2.1 hmem

/-- A mark that the text starts with and that does not count there is `?.` in front of a digit. -/
theorem eq_questionDot_of_not_starts {cs : List Char} {m : Mark} (h : m.chars <+: cs) (hstarts : m.starts cs = false) :
    m = .questionDot ∧ (cs.drop 2).head?.any Char.isDigit = true := by
  rw [starts, List.isPrefixOf_iff_prefix.mpr h, Bool.true_and] at hstarts
  unfold standsBefore at hstarts
  split at hstarts
  · rename_i d rest hdrop
    refine ⟨rfl, ?_⟩
    rw [show cs.drop 2 = d :: rest from hdrop]
    simpa using hstarts
  · cases hstarts

end Mark

namespace Token

/-! ## Between two tokens -/

/-- Blanks and comments, in front of the text `rest`. A line comment goes up to the end of its line, or of the text; a block
comment goes up to the first `*/`, or to the end of the text. -/
inductive Gap : List Char → List Char → Prop where
  | nil (rest : List Char) : Gap [] rest
  | blank {c : Char} {gap rest : List Char} : isBlank c = true → Gap gap rest → Gap (c :: gap) rest
  | line {body gap rest : List Char} :
      '\n' ∉ body → Gap gap rest → Gap ('/' :: '/' :: (body ++ '\n' :: gap)) rest
  | lastLine {body : List Char} : '\n' ∉ body → Gap ('/' :: '/' :: body) []
  | block {body gap rest : List Char} :
      ¬ ['*', '/'] <:+: body → Gap gap rest → Gap ('/' :: '*' :: (body ++ '*' :: '/' :: gap)) rest
  | lastBlock {body : List Char} : ¬ ['*', '/'] <:+: body → Gap ('/' :: '*' :: body) []

/-- What is taken as this kind of trivia, in front of the text `rest`: for a comment, from behind its opening. -/
def Trivia.Takes : Trivia → List Char → List Char → Prop
  | .blank, taken, rest => Gap taken rest
  | .lineComment, taken, rest =>
    (∃ body gap, taken = body ++ '\n' :: gap ∧ '\n' ∉ body ∧ Gap gap rest) ∨ ('\n' ∉ taken ∧ rest = [])
  | .blockComment, taken, rest =>
    (∃ body gap, taken = body ++ '*' :: '/' :: gap ∧ ¬ ['*', '/'] <:+: body ∧ Gap gap rest) ∨
      (¬ ['*', '/'] <:+: taken ∧ rest = [])

/-- A line comment is a gap. -/
theorem Trivia.Takes.line {taken rest : List Char} (h : Trivia.lineComment.Takes taken rest) :
    Gap ('/' :: '/' :: taken) rest := by
  rcases h with ⟨body, gap, rfl, hbody, hgap⟩ | ⟨hbody, rfl⟩
  · exact .line hbody hgap
  · exact .lastLine hbody

theorem Trivia.Takes.block {taken rest : List Char} (h : Trivia.blockComment.Takes taken rest) :
    Gap ('/' :: '*' :: taken) rest := by
  rcases h with ⟨body, gap, rfl, hbody, hgap⟩ | ⟨hbody, rfl⟩
  · exact .block hbody hgap
  · exact .lastBlock hbody

/-- A character in front of a text without `*/` leaves it so, unless the two make one up. -/
theorem not_closing_cons {c : Char} {body : List Char} (hbody : ¬ ['*', '/'] <:+: body)
    (hc : ∀ rest, c = '*' → body ≠ '/' :: rest) : ¬ ['*', '/'] <:+: c :: body := by
  rw [List.infix_cons_iff]
  rintro (hfront | hlater)
  · obtain ⟨rfl, ⟨rest, rfl⟩⟩ := List.cons_prefix_cons.mp hfront
    exact hc rest rfl rfl
  · exact hbody hlater

/-- What the scanner takes as trivia is trivia. -/
theorem takes_trivia (t : Trivia) (cs : List Char) : t.Takes (trivia t cs).1 (trivia t cs).2 := by
  fun_induction trivia t cs with
  | case1 t =>
    cases t with
    | blank => exact .nil []
    | lineComment => exact .inr ⟨by simp, rfl⟩
    | blockComment => exact .inr ⟨by simp, rfl⟩
  | case2 cs r ih => exact ih.line
  | case3 cs r ih => exact ih.block
  | case4 c cs hline hblock hc r ih => exact .blank hc ih
  | case5 c cs hline hblock hc => exact .nil _
  | case6 c cs r ih =>
    dsimp only [r] at ih ⊢
    by_cases hc : c = '\n'
    · subst hc
      exact .inl ⟨[], _, rfl, by simp, ih⟩
    · rw [if_neg hc] at ih ⊢
      rcases ih with ⟨body, gap, heq, hbody, hgap⟩ | ⟨hbody, hrest⟩
      · exact .inl ⟨c :: body, gap, by rw [heq, List.cons_append], by simp [hbody, Ne.symm hc], hgap⟩
      · exact .inr ⟨by simp [hbody, Ne.symm hc], hrest⟩
  | case7 cs r ih => exact .inl ⟨[], _, rfl, by simp, ih⟩
  | case8 c cs hopen r ih =>
    -- a star whose comment goes on has no slash behind it
    have happend := trivia_append .blockComment cs
    rcases ih with ⟨body, gap, heq, hbody, hgap⟩ | ⟨hbody, hrest⟩
    · refine .inl ⟨c :: body, gap, by rw [heq, List.cons_append], not_closing_cons hbody ?_, hgap⟩
      rintro rest rfl rfl
      exact hopen _ rfl (by rw [← happend, heq]; rfl)
    · refine .inr ⟨not_closing_cons hbody ?_, hrest⟩
      rintro rest rfl htaken
      exact hopen _ rfl (by rw [← happend, htaken]; rfl)

end Token

/-! ## The text of a token -/

/-- The kind is spelled by `text` in front of the text `rest`. Nothing longer can be a mark there, but `?.` is not one in front
of a digit. -/
def TokenKind.Spells (text rest : List Char) : TokenKind → Prop
  | .ident name => text = name.toList ∧ ∀ word : Keyword, word.spelling ≠ name
  | .privateName name => text = name.toList
  | .number digits => text = digits.toList
  | .string _ => text.head? = some '\x22' ∨ text.head? = some '\x27'
  | .template body => text = '\x60' :: body.toList ++ ['\x60'] ∨ (text = '\x60' :: body.toList ∧ rest = [])
  | .keyword word => text = word.spelling.toList
  | .mark m =>
    text = m.chars ∧ ∀ longer : Mark, longer.chars <+: text ++ rest → m.chars.length < longer.chars.length →
      longer = .questionDot ∧ ((text ++ rest).drop 2).head?.any Char.isDigit = true
  | .unknown c => text = [c]
  | .endOfInput => text = [] ∧ rest = []

namespace Token

/-- The kind of the token is spelled by its text. -/
def Lexeme.Spelled (l : Lexeme) : Prop := l.kind.Spells l.text l.rest

/-- A word is spelled by its text. -/
theorem spelled_word (c : Char) (cs : List Char) : (Lexeme.word c cs).Spelled := by
  unfold Lexeme.Spelled Lexeme.word
  dsimp only
  split
  · rename_i word hword
    rw [TokenKind.Spells, Keyword.ofSpelling?_eq_some_iff.mp hword, String.toList_ofList]
  · rename_i hnone
    refine ⟨(String.toList_ofList).symm, fun word hword => ?_⟩
    rw [Keyword.ofSpelling?_eq_some_iff.mpr hword] at hnone
    cases hnone

theorem spelled_privateName (c : Char) (cs : List Char) : (Lexeme.privateName c cs).Spelled := by
  unfold Lexeme.privateName
  split
  · exact (String.toList_ofList).symm
  · rfl

/-- A template that nothing closes goes to the end of the text. -/
theorem templateBody_rest (cs : List Char) (h : (templateBody cs).2.2 = false) : (templateBody cs).2.1 = [] := by
  fun_induction templateBody cs with
  | case1 => rfl
  | case2 => rfl
  | case3 c cs r ih => exact ih h
  | case4 cs hs hs' => cases h
  | case5 c cs hs hs' hc r ih => exact ih h

theorem spelled_template (offset : Nat) (cs : List Char) : (Lexeme.template offset '\x60' cs).Spelled := by
  dsimp only [Lexeme.Spelled, Lexeme.template, TokenKind.Spells]
  rw [String.toList_ofList]
  cases hclosed : (templateBody cs).2.2 with
  | true => exact .inl rfl
  | false => exact .inr ⟨by simp, templateBody_rest cs hclosed⟩

theorem spelled_mark (c : Char) (cs : List Char) : (Lexeme.mark c cs).Spelled := by
  unfold Lexeme.mark
  split
  · rename_i m hm
    have htext : m.chars ++ (c :: cs).drop m.chars.length = c :: cs := by
      obtain ⟨rest, hrest⟩ := Mark.isPrefix_of_longest? hm
      rw [← hrest, List.drop_left]
    refine ⟨rfl, fun longer hlonger hlength => ?_⟩
    dsimp only at hlonger ⊢
    rw [htext] at hlonger ⊢
    refine Mark.eq_questionDot_of_not_starts hlonger ?_
    cases hstarts : longer.starts (c :: cs) with
    | false => rfl
    | true =>
      have := Mark.length_le_of_longest? hm hstarts
      omega
  · rfl

/-- Every token is spelled by its text. -/
theorem spelled_lexeme (offset : Nat) (c : Char) (cs : List Char) : (lexeme offset c cs).Spelled := by
  unfold lexeme
  split
  · exact spelled_word c cs
  split
  · exact (String.toList_ofList).symm
  split
  · exact (String.toList_ofList).symm
  split
  · exact spelled_privateName c cs
  split
  · rename_i hquote
    rcases Bool.or_eq_true _ _ ▸ hquote with hquote | hquote
    · exact .inl (congrArg some (of_decide_eq_true hquote))
    · exact .inr (congrArg some (of_decide_eq_true hquote))
  split
  · rename_i hquote
    subst hquote
    exact spelled_template offset cs
  · exact spelled_mark c cs

/-! ## Token after token -/

/-- Behind the text `before`, the text `cs` is made up of the tokens `ts`: first blanks and comments, then the text of the
token, then what the other tokens make up. The end of the input comes last. -/
inductive Tiles : List Char → List Char → List Token → Prop where
  | last {before gap : List Char} :
      Gap gap [] → Tiles before gap
        [⟨.endOfInput, ⟨utf8Length (before ++ gap), utf8Length (before ++ gap)⟩, gap.any isLineBreak⟩]
  | cons {before gap text rest : List Char} {kind : TokenKind} {ts : List Token} :
      Gap gap (text ++ rest) → kind.Spells text rest → Tiles (before ++ gap ++ text) rest ts →
        Tiles before (gap ++ (text ++ rest))
          (⟨kind, ⟨utf8Length (before ++ gap), utf8Length (before ++ gap ++ text)⟩, gap.any isLineBreak⟩ :: ts)

/-- The tokens of a text make it up. -/
theorem tiles_scanFrom (offset : Nat) (cs before : List Char) (hoffset : offset = utf8Length before) :
    Tiles before cs ((scanFrom offset cs).map Scanned.token) := by
  fun_induction scanFrom offset cs generalizing before with
  | case1 offset cs gap start h =>
    have hgap : Gap gap (trivia .blank cs).2 := takes_trivia .blank cs
    have hcs : gap = cs := by
      have := trivia_append .blank cs
      rwa [h, List.append_nil] at this
    have hstart : start = utf8Length (before ++ gap) := by rw [utf8Length_append, ← hoffset]
    rw [h, hcs] at hgap
    rw [List.map_singleton, hstart, hcs]
    exact .last hgap
  | case2 offset cs gap start c rest h l stop ih =>
    have hgap : Gap gap (trivia .blank cs).2 := takes_trivia .blank cs
    have hrest : l.text ++ l.rest = c :: rest := lexeme_append start c rest
    have hcs : cs = gap ++ (l.text ++ l.rest) := by rw [hrest, ← h, trivia_append]
    have hstart : start = utf8Length (before ++ gap) := by rw [utf8Length_append, ← hoffset]
    have hstop : stop = utf8Length (before ++ gap ++ l.text) := by rw [utf8Length_append, ← hstart]
    rw [h, ← hrest] at hgap
    rw [List.map_cons, hcs, hstop, hstart]
    refine .cons hgap (spelled_lexeme start c rest) ?_
    rw [← hstop]
    exact ih _ hstop

namespace Tiles

variable {before cs : List Char} {ts : List Token}

/-- The last token ends where the text ends. -/
theorem getLast? (h : Tiles before cs ts) : (ts.getLast?.map Token.span) =
    some ⟨utf8Length (before ++ cs), utf8Length (before ++ cs)⟩ := by
  induction h with
  | last _ => rfl
  | @cons before gap text rest kind ts _ _ h ih =>
    cases ts with
    | nil => cases h
    | cons t ts =>
      rw [List.getLast?_cons_cons, ih]
      simp

/-- Every token is spelled by the text of its span. -/
theorem spells (h : Tiles before cs ts) : ∀ t ∈ ts, ∃ front text back, before ++ cs = front ++ (text ++ back) ∧
    t.span = ⟨utf8Length front, utf8Length (front ++ text)⟩ ∧ t.kind.Spells text back := by
  induction h with
  | @last before gap _ =>
    exact List.forall_mem_singleton.mpr ⟨before ++ gap, [], [], by simp, by simp, rfl, rfl⟩
  | @cons before gap text rest kind ts _ hspells _ ih =>
    refine List.forall_mem_cons.mpr ⟨⟨before ++ gap, text, rest, by simp, rfl, hspells⟩, ?_⟩
    simpa using ih

/-- Before every token there are blanks and comments, from where the token before it ends. -/
theorem gap (h : Tiles before cs ts) {us vs : List Token} {t : Token} (hts : ts = us ++ t :: vs) :
    ∃ front gap back, before ++ cs = front ++ (gap ++ back) ∧
      utf8Length front = ((us.getLast?.map fun u => u.span.stop).getD (utf8Length before)) ∧
      t.span.start = utf8Length (front ++ gap) ∧ t.afterBreak = gap.any isLineBreak ∧ Gap gap back := by
  induction h generalizing us with
  | @last before gap hgap =>
    cases us with
    | nil =>
      cases hts
      exact ⟨before, gap, [], by simp, rfl, rfl, rfl, hgap⟩
    | cons u us => simp at hts
  | @cons before gap text rest kind ts hgap _ h ih =>
    cases us with
    | nil =>
      cases hts
      exact ⟨before, gap, text ++ rest, rfl, rfl, rfl, rfl, hgap⟩
    | cons u us =>
      obtain ⟨rfl, hrest⟩ := List.cons.inj hts
      obtain ⟨front, gap', back, hcs, hfront, hgap'⟩ := ih hrest
      refine ⟨front, gap', back, by simpa using hcs, ?_, hgap'⟩
      -- the first token ends where the text for the others starts, which is the place when none stands between
      rw [hfront, List.getLast?_cons]
      cases us.getLast? <;> rfl

end Tiles

/-! ## The tokens of a source text -/

/-- The tokens make up the source text. -/
structure Tiling (source : String) (ts : List Token) : Prop where
  /-- The end of the input comes last, and only there. -/
  ends : ∃ init last, ts = init ++ [last] ∧ last.kind = .endOfInput ∧
    last.span = ⟨source.utf8ByteSize, source.utf8ByteSize⟩ ∧
    ∀ t ∈ init, t.kind ≠ .endOfInput ∧ t.span.start < t.span.stop
  /-- No two tokens share a part of the text, and they come in its order. -/
  ordered : ts.Pairwise fun a b => a.span.stop ≤ b.span.start
  /-- No token starts or ends inside a character. -/
  aligned : ∀ t ∈ ts, t.span.Valid source
  /-- From the end of the token before it, or from the start of the text, up to a token there are blanks and comments, and the
  token says whether there is a line break among them. -/
  gaps : ∀ us t vs, ts = us ++ t :: vs → ∃ front gap back, source.toList = front ++ (gap ++ back) ∧
    utf8Length front = (us.getLast?.map fun u => u.span.stop).getD 0 ∧ t.span.start = utf8Length (front ++ gap) ∧
    t.afterBreak = gap.any isLineBreak ∧ Gap gap back
  /-- At the span of a token stands what it is spelled by. -/
  spelled : ∀ t ∈ ts, ∃ front text back, source.toList = front ++ (text ++ back) ∧
    t.span = ⟨utf8Length front, utf8Length (front ++ text)⟩ ∧ t.kind.Spells text back

/-- Every source text is tiled by its tokens. -/
theorem tiling_scan (source : String) : Tiling source ((scan source).map Scanned.token) := by
  have hfollow : Follow 0 ((scan source).map Scanned.token) := follow_scanFrom 0 source.toList
  have htiles : Tiles [] source.toList ((scan source).map Scanned.token) := tiles_scanFrom 0 source.toList [] rfl
  refine ⟨?_, hfollow.pairwise, ?_, fun us t vs => htiles.gap, htiles.spells⟩
  · obtain ⟨last, heq, hspan⟩ := Option.map_eq_some_iff.mp htiles.getLast?
    refine ⟨_, last, (List.dropLast_append_getLast? last heq).symm, hfollow.getLast last heq, ?_, ?_⟩
    · rw [hspan, List.nil_append, utf8Length_toList]
    · intro t ht
      exact (hfollow.lt_stop t ht).symm
  · intro t ht
    obtain ⟨scanned, hscanned, rfl⟩ := List.mem_map.mp ht
    exact (cuts_scanFrom 0 source.toList [] rfl scanned hscanned).1.valid

end Token

end ContractCompiler
