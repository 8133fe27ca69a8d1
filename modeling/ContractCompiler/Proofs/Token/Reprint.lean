import ContractCompiler.Proofs.Token.Numerals
import ContractCompiler.Proofs.Token.Order
import ContractCompiler.Proofs.Token.Quoting

/-!
# Tokens printed and scanned again

A token of a text without faults has a canonical text (`TokenKind.canonical`), and `reprint` writes tokens with single
spaces between them. In front of a space, or at the end of a text, the canonical text of a token is scanned as that token:
nothing that follows is taken for a part of it, and it is taken for nothing else. So scanning the printed tokens gives them
again.
-/

namespace ContractCompiler

open Text

/-- The text that a token is printed as: its spelling, a string in double quotes, a template in backquotes. -/
def TokenKind.canonical : TokenKind → String
  | .ident name | .privateName name => name
  | .number text => text
  | .string value => solidityString value
  | .template text => "`" ++ text ++ "`"
  | .keyword word => word.spelling
  | .mark m => m.spelling
  | .unknown c => String.singleton c
  | .endOfInput => ""

/-- Tokens printed with single spaces between them. The end of the input is not printed. -/
def reprint (kinds : List TokenKind) : String :=
  " ".intercalate ((kinds.filter (· ≠ .endOfInput)).map TokenKind.canonical)

/-- A word is printed as it is. -/
theorem TokenKind.canonical_ofWord (name : String) : (ofWord name).canonical = name := by
  unfold ofWord
  split
  · rfl
  · split
    · rename_i word hword
      exact Keyword.ofSpelling?_eq_some_iff.mp hword
    · rfl

namespace Mark

/-- A mark starts with a character that is a mark by itself. -/
theorem exists_single (m : Mark) : ∃ single ∈ longestFirst, single.chars = m.chars.take 1 := by
  cases m <;> decide

/-- A mark of one character starts every text that starts with it. -/
theorem starts_of_single {m : Mark} {c : Char} (h : m.chars = [c]) (cs : List Char) : m.starts (c :: cs) = true := by
  have hstands : ∀ rest, m.standsBefore rest = true := by
    intro rest
    cases m <;> first | rfl | simp [chars] at h
  rw [starts, h, hstands, Bool.and_true, List.isPrefixOf_iff_prefix]
  exact ⟨cs, rfl⟩

/-- If no mark starts a text, then no mark starts with its first character. -/
theorem longest?_eq_none {c : Char} {cs : List Char} (h : longest? (c :: cs) = none) (ds : List Char) :
    longest? (c :: ds) = none := by
  refine List.find?_eq_none.mpr fun m _ hm => ?_
  obtain ⟨single, hsingle, hchars⟩ := exists_single m
  rw [starts, Bool.and_eq_true, List.isPrefixOf_iff_prefix] at hm
  obtain ⟨rest, hrest⟩ := hm.1
  have hfirst : m.chars.take 1 = [c] := by
    cases hm : m.chars with
    | nil => exact absurd hm m.chars_ne_nil
    | cons d ms =>
      rw [hm] at hrest
      rw [(List.cons.inj hrest).1]
      rfl
  exact List.find?_eq_none.mp h single hsingle (starts_of_single (hchars.trans hfirst) cs)

end Mark

namespace Token

/-! ## In front of a space, or at the end -/

/-- The text is at its end, or goes on with a space. -/
def Spaced (rest : List Char) : Prop := rest = [] ∨ ∃ cs, rest = ' ' :: cs

/-- A space ends a word or a number. -/
theorem Spaced.delimited {rest : List Char} (h : Spaced rest) : Delimited rest := by
  rcases h with rfl | ⟨cs, rfl⟩
  · exact ⟨by simp, by simp⟩
  · exact ⟨by simpa using (by decide : isWordPart ' ' = false), by simp⟩

/-- Wherever it is printed, the token is scanned as it is. -/
def Reprints (kind : TokenKind) : Prop := ∀ rest, Spaced rest → Scans kind.canonical.toList [kind] rest

/-- A mark is one token, also where it could open a comment. -/
theorem reprints_mark (m : Mark) : Reprints (.mark m) := by
  intro rest hrest
  rw [TokenKind.canonical, Mark.spelling, String.toList_ofList]
  cases hchars : m.chars with
  | nil => exact absurd hchars m.chars_ne_nil
  | cons c cs =>
    refine .token_of_trivia ?_ fun offset => ?_
    · rcases hrest with rfl | ⟨ds, rfl⟩ <;> cases m <;> cases hchars <;> rfl
    · rcases hrest with rfl | ⟨ds, rfl⟩ <;> cases m <;> cases hchars <;> rfl

/-- A template that is closed is cut off again. -/
theorem templateBody_again {cs : List Char} (h : (templateBody cs).2.2 = true) (rest : List Char) :
    templateBody ((templateBody cs).1 ++ '\x60' :: rest) = ((templateBody cs).1, rest, true) := by
  fun_induction templateBody cs with
  | case1 => cases h
  | case2 => cases h
  | case3 c cs r ih =>
    rw [List.cons_append, List.cons_append, templateBody, ih h]
  | case4 cs _ _ => rfl
  | case5 c cs hlone hescape hc r ih =>
    have hslash : c ≠ '\\' := by
      rintro rfl
      cases cs with
      | nil => exact hlone rfl rfl
      | cons d ds => exact hescape d ds rfl rfl
    rw [List.cons_append, templateBody, if_neg hc, ih h]
    · exact fun heq => absurd heq hslash
    · exact fun _ _ heq => absurd heq hslash

/-- A closed template is scanned as it is. -/
theorem reprints_template {cs : List Char} (h : (templateBody cs).2.2 = true) :
    Reprints (.template (String.ofList (templateBody cs).1)) := by
  intro rest _
  have htext : (TokenKind.template (String.ofList (templateBody cs).1)).canonical.toList =
      '\x60' :: ((templateBody cs).1 ++ ['\x60']) := by
    simp [TokenKind.canonical]
  rw [htext]
  refine .token (by decide) fun offset => ?_
  have hlexeme : ∀ ds, lexeme offset '\x60' ds = Lexeme.template offset '\x60' ds := fun _ => rfl
  rw [hlexeme, List.append_assoc, List.singleton_append, Lexeme.template, templateBody_again h]
  simp

theorem reprints_word {c : Char} (hc : isWordStart c = true) (cs : List Char) : Reprints (Lexeme.word c cs).kind := by
  intro rest hrest
  have hword := isWord_takeWhile hc cs
  have hkind : (Lexeme.word c cs).kind = .ofWord (String.ofList (c :: cs.takeWhile isWordPart)) := by
    have hmarker : c ≠ privateMarker := by
      rintro rfl
      rw [isWordStart_marker] at hc
      cases hc
    have hpublic : isPrivateName (String.ofList (c :: cs.takeWhile isWordPart)) = false := by
      simp [isPrivateName, hmarker]
    rw [TokenKind.ofWord, hpublic]
    rfl
  rw [hkind, TokenKind.canonical_ofWord, String.toList_ofList]
  exact scans_word hword hrest.delimited

theorem reprints_number {c : Char} {cs : List Char} (h : startsNumber c cs = true) :
    Reprints (Lexeme.number c cs).kind := by
  intro rest hrest
  have hscans := scans_number h hrest.delimited
  simpa [Lexeme.number, TokenKind.canonical] using hscans

/-- A private name, or its marker alone, which no word follows when it is printed. -/
theorem reprints_privateName (cs : List Char) : Reprints (Lexeme.privateName privateMarker cs).kind := by
  intro rest hrest
  by_cases hstart : cs.head?.any isWordStart = true
  · obtain ⟨d, ds, rfl, hd⟩ : ∃ d ds, cs = d :: ds ∧ isWordStart d = true := by
      cases cs with
      | nil => cases hstart
      | cons d ds => exact ⟨d, ds, rfl, by simpa using hstart⟩
    have hword : isWord ((d :: ds).takeWhile isWordPart) = true := by
      rw [List.takeWhile_cons_of_pos (isWordPart_of_isWordStart hd)]
      exact isWord_takeWhile hd ds
    have hscans := scans_privateName hword hrest.delimited
    rw [Lexeme.privateName, if_pos hstart]
    simpa [TokenKind.canonical, TokenKind.ofWord, isPrivateName] using hscans
  · rw [Lexeme.privateName, if_neg hstart]
    simp only [TokenKind.canonical, String.toList_singleton]
    refine .token (by decide) fun offset => ?_
    rcases hrest with rfl | ⟨ds, rfl⟩ <;> rfl

/-- A character that is no mark, nor the start of any other token. -/
theorem reprints_unknown {c : Char} {cs : List Char} (hblank : isBlank c = false) (hword : isWordStart c = false)
    (hdigit : c.isDigit = false) (hothers : c ∉ ['#', '\x22', '\x27', '\x60']) (h : Mark.longest? (c :: cs) = none) :
    Reprints (.unknown c) := by
  intro rest hrest
  have hnone : Mark.longest? [c] = none := Mark.longest?_eq_none h []
  have hpoint : c ≠ '.' := by
    rintro rfl
    cases hnone
  have hslash : c ≠ '/' := by
    rintro rfl
    cases hnone
  simp only [List.mem_cons, List.not_mem_nil, or_false, not_or] at hothers
  simp only [TokenKind.canonical, String.toList_singleton]
  refine .token (by simp [isVisible, hblank, hslash]) fun offset => ?_
  simp [lexeme, hword, hdigit, hpoint, hothers, Lexeme.mark, Mark.longest?_eq_none h]

/-- A token without faults is scanned as it is wherever it is printed. -/
theorem reprints_lexeme {offset : Nat} {c : Char} {cs : List Char} (hblank : isBlank c = false)
    (hfaults : (lexeme offset c cs).errors = []) : Reprints (lexeme offset c cs).kind := by
  unfold lexeme at hfaults ⊢
  by_cases hword : isWordStart c = true
  · rw [if_pos hword]
    exact reprints_word hword cs
  rw [if_neg hword] at hfaults ⊢
  by_cases hdigit : c.isDigit = true
  · rw [if_pos hdigit]
    exact reprints_number (by simp [startsNumber, hdigit])
  rw [if_neg hdigit] at hfaults ⊢
  by_cases hpoint : (c = '.' && cs.head?.any Char.isDigit) = true
  · rw [if_pos hpoint]
    exact reprints_number (by simpa [startsNumber, hdigit] using hpoint)
  rw [if_neg hpoint] at hfaults ⊢
  by_cases hmarker : c = '#'
  · rw [if_pos hmarker, hmarker]
    exact reprints_privateName cs
  rw [if_neg hmarker] at hfaults ⊢
  by_cases hquote : (c = '\x22' || c = '\x27') = true
  · rw [if_pos hquote]
    exact fun rest _ => scans_string _ rest
  rw [if_neg hquote] at hfaults ⊢
  by_cases htemplate : c = '\x60'
  · rw [if_pos htemplate] at hfaults ⊢
    refine reprints_template ?_
    by_contra hopen
    simp [Lexeme.template, hopen] at hfaults
  rw [if_neg htemplate]
  unfold Lexeme.mark
  cases hlongest : Mark.longest? (c :: cs) with
  | some m => exact reprints_mark m
  | none =>
    simp only [Bool.or_eq_true, decide_eq_true_eq, not_or] at hquote
    refine reprints_unknown hblank (by simpa using hword) (by simpa using hdigit) ?_ hlongest
    simp [hmarker, hquote, htemplate]

/-! ## Token after token -/

/-- Trivia end in front of a character that is no blank. -/
theorem isBlank_of_trivia {t : Trivia} {cs rest : List Char} {c : Char} (h : (trivia t cs).2 = c :: rest) :
    isBlank c = false := by
  fun_induction trivia t cs with
  | case1 => cases h
  | case2 cs r ih => exact ih h
  | case3 cs r ih => exact ih h
  | case4 d cs _ _ hd r ih => exact ih h
  | case5 d cs _ _ hd =>
    cases h
    simpa using hd
  | case6 d cs r ih => exact ih h
  | case7 cs r ih => exact ih h
  | case8 d cs _ r ih => exact ih h

/-- Every token of a text without faults is scanned as it is wherever it is printed. -/
theorem reprints_of_mem {offset : Nat} {cs : List Char} {t : Scanned} (ht : t ∈ scanFrom offset cs)
    (hend : t.token.kind ≠ .endOfInput) (hfaults : t.errors = []) : Reprints t.token.kind := by
  fun_induction scanFrom offset cs with
  | case1 offset cs gap start h =>
    cases List.mem_singleton.mp ht
    exact absurd rfl hend
  | case2 offset cs gap start c rest h l stop ih =>
    rcases List.mem_cons.mp ht with rfl | ht
    · exact reprints_lexeme (isBlank_of_trivia h) hfaults
    · exact ih ht

/-- Tokens printed with spaces between them are scanned as they are. -/
theorem scans_intercalate {kinds : List TokenKind} (h : ∀ kind ∈ kinds, Reprints kind) :
    Scans (" ".intercalate (kinds.map TokenKind.canonical)).toList kinds [] := by
  rw [String.toList_intercalate, List.map_map]
  induction kinds with
  | nil => exact .nil []
  | cons kind kinds ih =>
    have hkind := h kind List.mem_cons_self
    cases kinds with
    | nil => simpa using hkind [] (.inl rfl)
    | cons next kinds =>
      have hrest := ih fun k hk => h k (List.mem_cons_of_mem kind hk)
      rw [List.map_cons, List.map_cons, List.intercalate_cons_cons, ← List.map_cons, List.append_assoc]
      show Scans (kind.canonical.toList ++ ' ' :: _) ([kind] ++ next :: kinds) []
      exact .append (hkind _ (.inr ⟨_, rfl⟩)) hrest.space

/-- All tokens but the last one are other than the end of the input. -/
theorem Follow.kinds {offset : Nat} {ts : List Token} (h : Follow offset ts) :
    (ts.map Token.kind).filter (· ≠ .endOfInput) ++ [TokenKind.endOfInput] = ts.map Token.kind := by
  induction h with
  | last _ _ hk => simp [hk]
  | @cons _ t ts _ _ hk _ ih =>
    have hkept : ((t :: ts).map Token.kind).filter (· ≠ .endOfInput) =
        t.kind :: (ts.map Token.kind).filter (· ≠ .endOfInput) := by
      simp [hk]
    rw [hkept, List.cons_append, ih, List.map_cons]

/-- Scanning is stable: the tokens of a text without faults, printed in their canonical form with single spaces between
them, are scanned as the same tokens, again without faults. -/
theorem scan_reprint (source : String) (h : ∀ t ∈ scan source, t.errors = []) :
    let kinds := (scan source).map fun t => t.token.kind
    (scan (reprint kinds)).map (fun t => t.token.kind) = kinds ∧ ∀ t ∈ scan (reprint kinds), t.errors = [] := by
  intro kinds
  have hprinted : ∀ kind ∈ kinds.filter (· ≠ .endOfInput), Reprints kind := by
    intro kind hkind
    obtain ⟨hmem, hend⟩ := List.mem_filter.mp hkind
    obtain ⟨t, ht, rfl⟩ := List.mem_map.mp hmem
    exact reprints_of_mem ht (by simpa using hend) (h t ht)
  have hkinds : kinds.filter (· ≠ .endOfInput) ++ [TokenKind.endOfInput] = kinds := by
    have hfollow := (follow_scanFrom 0 source.toList).kinds
    rwa [List.map_map] at hfollow
  have hscan := (scans_intercalate hprinted).scan
  rwa [hkinds] at hscan

/-- A text in which most tokens touch, and are told apart by what follows them. -/
def crowdedSource : String := "a?.5:#p # .5e+3/**/0xFFn'it\\'s'`x\\`y`/\\>>="

/-- It is printed with its tokens apart, and scanned again as these tokens. -/
theorem crowdedSource_reprinted :
    let kinds := (scan crowdedSource).map fun t => t.token.kind
    (∀ t ∈ scan crowdedSource, t.errors = []) ∧
      reprint kinds = "a ? .5 : #p # .5e+3 0xFFn \"it's\" `x\\`y` / \\ > >=" ∧
      (scan (reprint kinds)).map (fun t => t.token.kind) = kinds ∧ ∀ t ∈ scan (reprint kinds), t.errors = [] := by
  have hread : (∀ t ∈ scan crowdedSource, t.errors = []) ∧ reprint ((scan crowdedSource).map fun t => t.token.kind) =
      "a ? .5 : #p # .5e+3 0xFFn \"it's\" `x\\`y` / \\ > >=" := by
    decide +kernel
  exact ⟨hread.1, hread.2, scan_reprint crowdedSource hread.1⟩

end Token

end ContractCompiler
