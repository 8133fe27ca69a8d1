import ContractCompiler.Proofs.Printing.Print
import ContractCompiler.Token.Scan

/-!
# Scanning what was written

A text that is put together from words, numbers and marks is cut again into these tokens, as long as what follows each
of them cannot be taken for a part of it. `Scans cs ks rest` says this of the text `cs` in front of
`rest`; such texts can be put one after the other.
-/

namespace ContractCompiler.Token

open Text

/-- In front of `rest`, the text `cs` is scanned as tokens of the kinds `ks`, with no faults and no line breaks. -/
def Scans (cs : List Char) (ks : List TokenKind) (rest : List Char) : Prop :=
  ∀ offset, ∃ ts : List Scanned, scanFrom offset (cs ++ rest) = ts ++ scanFrom (offset + utf8Length cs) rest ∧
    ts.map (fun t => t.token.kind) = ks ∧ ∀ t ∈ ts, t.errors = [] ∧ t.token.afterBreak = false

/-- A character that can start a token and is no part of the text between tokens. -/
def isVisible (c : Char) : Bool := !isBlank c && c != '/'

/-- Before a visible character there is nothing to skip. -/
theorem trivia_of_isVisible {c : Char} (h : isVisible c = true) (cs : List Char) :
    trivia .blank (c :: cs) = ([], c :: cs) := by
  simp only [isVisible, Bool.and_eq_true, Bool.not_eq_true', bne_iff_ne, ne_eq] at h
  rw [trivia]
  · rw [h.1]
    rfl
  all_goals exact fun _ heq => absurd heq h.2

/-- One token of a text and the scan of what follows it. -/
theorem scanFrom_eq (offset : Nat) (cs : List Char) :
    scanFrom offset cs =
      let gap := (trivia .blank cs).1
      let start := offset + utf8Length gap
      match (trivia .blank cs).2 with
      | [] => [⟨⟨.endOfInput, ⟨start, start⟩, gap.any isLineBreak⟩, []⟩]
      | c :: rest =>
        let l := lexeme start c rest
        ⟨⟨l.kind, ⟨start, start + utf8Length l.text⟩, gap.any isLineBreak⟩, l.errors⟩ ::
          scanFrom (start + utf8Length l.text) l.rest := by
  rw [scanFrom]
  split <;> rename_i heq <;> rw [heq]

/-- At the end of a text only the end of the input is left. -/
theorem scanFrom_nil (offset : Nat) : scanFrom offset [] = [⟨⟨.endOfInput, ⟨offset, offset⟩, false⟩, []⟩] := by
  rw [scanFrom_eq]
  simp [trivia]

/-- A space before a token is passed over. -/
theorem scanFrom_space (offset : Nat) (cs : List Char) : scanFrom offset (' ' :: cs) = scanFrom (offset + 1) cs := by
  have htrivia : trivia .blank (' ' :: cs) = (' ' :: (trivia .blank cs).1, (trivia .blank cs).2) := by
    rw [trivia] <;> first | rfl | nofun
  have hstart : offset + utf8Length (' ' :: (trivia .blank cs).1) = offset + 1 + utf8Length (trivia .blank cs).1 := by
    rw [utf8Length_cons, ← Nat.add_assoc]
    rfl
  rw [scanFrom_eq, scanFrom_eq (offset + 1), htrivia]
  simp only [hstart, List.any_cons, show isLineBreak ' ' = false from rfl, Bool.false_or]

/-- A token that stands at the very start of a text spans its characters, and the scan goes on behind them. -/
theorem scanFrom_of_trivia {offset : Nat} {c : Char} {cs rest : List Char} {kind : TokenKind}
    (hgap : trivia .blank (c :: cs ++ rest) = ([], c :: cs ++ rest))
    (h : lexeme offset c (cs ++ rest) = ⟨kind, c :: cs, rest, []⟩) :
    scanFrom offset (c :: cs ++ rest) =
      ⟨⟨kind, ⟨offset, offset + utf8Length (c :: cs)⟩, false⟩, []⟩ :: scanFrom (offset + utf8Length (c :: cs)) rest := by
  rw [scanFrom_eq, hgap, List.cons_append]
  simp only [utf8Length_nil, Nat.add_zero, h]
  rfl

/-- A token at the start of a text spans its characters, and the scan goes on behind them. -/
theorem scanFrom_of_lexeme {offset : Nat} {c : Char} {cs rest : List Char} {kind : TokenKind} (hc : isVisible c = true)
    (h : lexeme offset c (cs ++ rest) = ⟨kind, c :: cs, rest, []⟩) :
    scanFrom offset (c :: cs ++ rest) =
      ⟨⟨kind, ⟨offset, offset + utf8Length (c :: cs)⟩, false⟩, []⟩ :: scanFrom (offset + utf8Length (c :: cs)) rest :=
  scanFrom_of_trivia (trivia_of_isVisible hc _) h

namespace Scans

variable {cs ds rest : List Char} {ks ls : List TokenKind} {c : Char} {kind : TokenKind}

/-- Without characters there are no tokens. -/
theorem nil (rest : List Char) : Scans [] [] rest := fun _ => ⟨[], rfl, rfl, nofun⟩

/-- Texts can be put one after the other. -/
theorem append (h : Scans cs ks (ds ++ rest)) (h' : Scans ds ls rest) : Scans (cs ++ ds) (ks ++ ls) rest := by
  intro offset
  obtain ⟨ts, hts, hks, hclean⟩ := h offset
  obtain ⟨us, hus, hls, hclean'⟩ := h' (offset + utf8Length cs)
  refine ⟨ts ++ us, ?_, by rw [List.map_append, hks, hls], fun t ht => ?_⟩
  · rw [List.append_assoc, hts, hus, utf8Length_append, ← Nat.add_assoc, List.append_assoc]
  · rcases List.mem_append.mp ht with ht | ht
    · exact hclean t ht
    · exact hclean' t ht

/-- A space in front makes no difference. -/
theorem space (h : Scans cs ks rest) : Scans (' ' :: cs) ks rest := by
  intro offset
  obtain ⟨ts, hts, hks, hclean⟩ := h (offset + 1)
  refine ⟨ts, ?_, hks, hclean⟩
  rw [List.cons_append, scanFrom_space, hts, utf8Length_cons, Nat.add_assoc]
  rfl

/-- A text that is one token and does not start as a comment does. -/
theorem token_of_trivia (hgap : trivia .blank (c :: cs ++ rest) = ([], c :: cs ++ rest))
    (h : ∀ offset, lexeme offset c (cs ++ rest) = ⟨kind, c :: cs, rest, []⟩) : Scans (c :: cs) [kind] rest := by
  intro offset
  refine ⟨[⟨⟨kind, ⟨offset, offset + utf8Length (c :: cs)⟩, false⟩, []⟩], ?_, rfl, by simp⟩
  exact scanFrom_of_trivia hgap (h offset)

/-- A text that is one token. -/
theorem token (hc : isVisible c = true)
    (h : ∀ offset, lexeme offset c (cs ++ rest) = ⟨kind, c :: cs, rest, []⟩) : Scans (c :: cs) [kind] rest :=
  token_of_trivia (trivia_of_isVisible hc _) h

/-- The tokens of a whole text have these kinds, with the end of the input behind them, and no faults. -/
theorem scan {text : String} (h : Scans text.toList ks []) :
    (Token.scan text).map (fun t => t.token.kind) = ks ++ [TokenKind.endOfInput] ∧ ∀ t ∈ Token.scan text, t.errors = [] := by
  obtain ⟨ts, hts, hks, hclean⟩ := h 0
  rw [List.append_nil, scanFrom_nil] at hts
  rw [Token.scan, hts]
  refine ⟨by rw [List.map_append, hks]; rfl, fun t ht => ?_⟩
  rcases List.mem_append.mp ht with ht | ht
  · exact (hclean t ht).1
  · rw [List.mem_singleton.mp ht]

end Scans

/-! ## Words -/

/-- The characters from `!` to `~` are visible, the slash apart. -/
theorem isVisible_of_le {c : Char} (h : 33 ≤ c.toNat) (h' : c.toNat ≤ 126) (hslash : c ≠ '/') : isVisible c = true := by
  have hblank : isBlank c = false := by
    rw [Bool.eq_false_iff]
    intro hblank
    obtain ⟨r, hr, hfirst, hlast⟩ := inRanges_iff.mp hblank
    simp only [blankRanges, List.mem_cons, List.not_mem_nil, or_false] at hr
    rcases hr with rfl | rfl | rfl | rfl | rfl | rfl | rfl | rfl | rfl | rfl <;> simp only at hfirst hlast <;> omega
  simp [isVisible, hblank, hslash]

/-- Letters by their numbers. -/
theorem isAlpha_iff_toNat {c : Char} : c.isAlpha = true ↔
    65 ≤ c.toNat ∧ c.toNat ≤ 90 ∨ 97 ≤ c.toNat ∧ c.toNat ≤ 122 := by
  have hupper : c.isUpper = decide (c.val ≥ 'A'.val ∧ c.val ≤ 'Z'.val) := rfl
  have hlower : c.isLower = (decide (c.val ≥ 'a'.val) && decide (c.val ≤ 'z'.val)) := rfl
  have halpha : c.isAlpha = (c.isUpper || c.isLower) := rfl
  rw [halpha, hupper, hlower]
  simp only [Bool.or_eq_true, Bool.and_eq_true, decide_eq_true_eq, UInt32.le_iff_toNat_le, ge_iff_le]
  exact Iff.rfl

/-- Digits by their numbers. -/
theorem isDigit_iff_toNat {c : Char} : c.isDigit = true ↔ 48 ≤ c.toNat ∧ c.toNat ≤ 57 := by
  simp only [Char.isDigit, Bool.and_eq_true, decide_eq_true_eq, UInt32.le_iff_toNat_le, ge_iff_le]
  exact Iff.rfl

/-- Letters and digits by their numbers. -/
theorem isAlphanum_iff {c : Char} : c.isAlphanum = true ↔
    65 ≤ c.toNat ∧ c.toNat ≤ 90 ∨ 97 ≤ c.toNat ∧ c.toNat ≤ 122 ∨ 48 ≤ c.toNat ∧ c.toNat ≤ 57 := by
  rw [Char.isAlphanum, Bool.or_eq_true, isAlpha_iff_toNat, isDigit_iff_toNat, or_assoc]

/-- The characters of a word are visible. -/
theorem isVisible_of_isWordPart {c : Char} (h : isWordPart c = true) : isVisible c = true := by
  simp only [isWordPart, Bool.or_eq_true, beq_iff_eq, isAlphanum_iff] at h
  rcases h with (h | rfl) | rfl
  · refine isVisible_of_le (by omega) (by omega) ?_
    rintro rfl
    simp at h
  · decide
  · decide

/-- What starts a word may be part of one. -/
theorem isWordPart_of_isWordStart {c : Char} (h : isWordStart c = true) : isWordPart c = true := by
  simp only [isWordStart, isWordPart, Char.isAlphanum, Bool.or_eq_true] at h ⊢
  rcases h with (h | h) | h
  · exact .inl (.inl (.inl h))
  · exact .inl (.inr h)
  · exact .inr h

/-- Whether the characters make up a word. -/
def isWord : List Char → Bool
  | [] => false
  | c :: cs => isWordStart c && cs.all isWordPart

/-- What can follow a word or a number without being taken for a part of it. -/
structure Delimited (rest : List Char) : Prop where
  head : ∀ c ∈ rest.head?, isWordPart c = false
  point : ∀ d cs, rest = '.' :: d :: cs → d.isDigit = false

/-- What is taken while a condition holds ends where it does not. -/
theorem takeWhile_append_of_head {p : Char → Bool} {cs rest : List Char} (hcs : cs.all p = true)
    (hrest : ∀ c ∈ rest.head?, p c = false) :
    (cs ++ rest).takeWhile p = cs ∧ (cs ++ rest).dropWhile p = rest := by
  have hall : ∀ c ∈ cs, p c = true := List.all_eq_true.mp hcs
  rw [List.takeWhile_append_of_pos hall, List.dropWhile_append_of_pos hall]
  cases rest with
  | nil => simp
  | cons c rest =>
    have hc : p c = false := hrest c rfl
    simp [hc]

/-- The private marker starts no word. -/
theorem isWordStart_marker : isWordStart privateMarker = false := rfl

/-- A word is one token. -/
theorem scans_word {cs rest : List Char} (h : isWord cs = true) (hrest : Delimited rest) :
    Scans cs [.ofWord (String.ofList cs)] rest := by
  cases cs with
  | nil => cases h
  | cons c cs =>
    simp only [isWord, Bool.and_eq_true] at h
    refine .token (isVisible_of_isWordPart (isWordPart_of_isWordStart h.1)) fun offset => ?_
    have hpublic : isPrivateName (String.ofList (c :: cs)) = false := by
      simp only [isPrivateName, String.toList_ofList, List.head?_cons, beq_eq_false_iff_ne, ne_eq,
        Option.some.injEq]
      rintro rfl
      rw [isWordStart_marker] at h
      cases h.1
    obtain ⟨htake, hdrop⟩ := takeWhile_append_of_head h.2 hrest.head
    rw [lexeme, if_pos h.1, Lexeme.word, htake, hdrop, TokenKind.ofWord, hpublic]
    rfl

/-- A private name is one token. -/
theorem scans_privateName {cs rest : List Char} (h : isWord cs = true) (hrest : Delimited rest) :
    Scans (privateMarker :: cs) [.ofWord (String.ofList (privateMarker :: cs))] rest := by
  refine .token (by decide) fun offset => ?_
  obtain ⟨c, ds, rfl, hc, hds⟩ : ∃ c ds, cs = c :: ds ∧ isWordStart c = true ∧ ds.all isWordPart = true := by
    cases cs with
    | nil => cases h
    | cons c ds => exact ⟨c, ds, rfl, by simpa [isWord] using h⟩
  have hall : (c :: ds).all isWordPart = true := by rw [List.all_cons, isWordPart_of_isWordStart hc, hds]; rfl
  obtain ⟨htake, hdrop⟩ := takeWhile_append_of_head hall hrest.head
  have hprivate : isPrivateName (String.ofList (privateMarker :: c :: ds)) = true := by simp [isPrivateName]
  have hlexeme : lexeme offset privateMarker (c :: ds ++ rest) = Lexeme.privateName privateMarker (c :: ds ++ rest) :=
    rfl
  rw [hlexeme, Lexeme.privateName, if_pos (by simpa using hc), htake, hdrop, TokenKind.ofWord, if_pos hprivate]

/-! ## Numbers -/

namespace Number

/-- A digit may be part of a word. -/
theorem isWordPart_of_isDigit {c : Char} (h : c.isDigit = true) : isWordPart c = true := by
  simp [isWordPart, Char.isAlphanum, h]

/-- So may a digit or a separator. -/
theorem isWordPart_of_digit {c : Char} (h : (c.isDigit || c == '_') = true) : isWordPart c = true := by
  simp only [Bool.or_eq_true] at h
  rcases h with h | h
  · exact isWordPart_of_isDigit h
  · simp [isWordPart, h]

/-- So may a hexadecimal digit. -/
theorem isWordPart_of_isHexDigit {c : Char} (h : isHexDigit c = true) : isWordPart c = true := by
  simp only [isHexDigit, hexValue?] at h
  simp only [isWordPart, Bool.or_eq_true, isAlphanum_iff]
  refine .inl (.inl ?_)
  split at h
  · rename_i hdigit
    exact isAlphanum_iff.mp (by rw [Char.isAlphanum, hdigit, Bool.or_true])
  split at h
  · rename_i hlower
    simp only [Bool.and_eq_true, decide_eq_true_eq, Char.le_def, UInt32.le_iff_toNat_le] at hlower
    have hfirst : 97 ≤ c.toNat := hlower.1
    have hlast : c.toNat ≤ 102 := hlower.2
    omega
  split at h
  · rename_i hupper
    simp only [Bool.and_eq_true, decide_eq_true_eq, Char.le_def, UInt32.le_iff_toNat_le] at hupper
    have hfirst : 65 ≤ c.toNat := hupper.1
    have hlast : c.toNat ≤ 70 := hupper.2
    omega
  · cases h

/-- So may the letter of a base. -/
theorem isWordPart_of_isRadixLetter {c : Char} (h : isRadixLetter c = true) : isWordPart c = true := by
  have halphas : c ∈ ['x', 'X', 'o', 'O', 'b', 'B'] := List.contains_iff_mem.mp h
  simp only [List.mem_cons, List.not_mem_nil, or_false] at halphas
  rcases halphas with rfl | rfl | rfl | rfl | rfl | rfl <;> decide

end Number

/-- Whether a number starts with `c` in front of `cs`. -/
def startsNumber (c : Char) (cs : List Char) : Bool := c.isDigit || c == '.' && cs.head?.any Char.isDigit

/-- A digit starts no word. -/
theorem not_isWordStart_of_isDigit {c : Char} (h : c.isDigit = true) : isWordStart c = false := by
  obtain ⟨hfirst, hlast⟩ := isDigit_iff_toNat.mp h
  rw [Bool.eq_false_iff]
  simp only [isWordStart, Bool.or_eq_true, isAlpha_iff_toNat, beq_iff_eq, ne_eq]
  rintro (((hupper | hlower) | rfl) | rfl)
  · omega
  · omega
  · revert hlast
    decide
  · revert hfirst
    decide

/-- Where a number starts a number is scanned. -/
theorem lexeme_of_startsNumber {c : Char} {cs : List Char} (h : startsNumber c cs = true) (offset : Nat) :
    lexeme offset c cs = Lexeme.number c cs := by
  simp only [startsNumber, Bool.or_eq_true, Bool.and_eq_true, beq_iff_eq] at h
  rcases h with h | ⟨rfl, h⟩
  · rw [lexeme, if_neg (by rw [not_isWordStart_of_isDigit h]; exact Bool.false_ne_true), if_pos h]
  · rw [lexeme, if_neg (by decide), if_neg (by decide), if_pos (by simpa using h)]

/-! ## Marks -/

/-- A mark in front of a space is one token, unless it can open a comment. -/
theorem scans_mark_space {m : Mark} (hm : ∀ c ∈ m.chars.head?, isVisible c = true) (rest : List Char) :
    Scans m.chars [.mark m] (' ' :: rest) := by
  have hlexeme : ∀ c cs, m.chars = c :: cs → ∀ offset, lexeme offset c (cs ++ ' ' :: rest) =
      ⟨.mark m, c :: cs, ' ' :: rest, []⟩ := by
    intro c cs hchars offset
    cases m <;> cases hchars <;> rfl
  cases hchars : m.chars with
  | nil => exact absurd hchars m.chars_ne_nil
  | cons c cs => exact .token (hm c (by rw [hchars]; rfl)) (hlexeme c cs hchars)

/-- A bracket or a comma is one token. -/
theorem scans_bracket {m : Mark} (hm : m ∈ [Mark.lparen, .rparen, .lbracket, .rbracket, .comma]) (rest : List Char) :
    Scans m.chars [.mark m] rest := by
  simp only [List.mem_cons, List.not_mem_nil, or_false] at hm
  rcases hm with rfl | rfl | rfl | rfl | rfl <;> exact .token (by decide) fun _ => rfl

/-- A point in front of anything but a digit is one token. -/
theorem scans_dot {rest : List Char} (h : ∀ c ∈ rest.head?, c.isDigit = false) : Scans ['.'] [.mark .dot] rest := by
  refine .token (by decide) fun offset => ?_
  have hnumber : rest.head?.any Char.isDigit = false := by
    cases rest with
    | nil => rfl
    | cons c cs => exact h c rfl
  simp only [lexeme, List.nil_append, hnumber, Bool.and_false, if_neg Bool.false_ne_true]
  rfl

/-! ## Where tokens come from -/

/-- Whether a name is a word, possibly behind the private marker. -/
def isName (name : String) : Bool := isWord (bareName name).toList

/-- A word has no private marker. -/
theorem bareName_of_isWordStart {c : Char} (h : isWordStart c = true) (cs : List Char) :
    bareName (String.ofList (c :: cs)) = String.ofList (c :: cs) := by
  have hmarker : c ≠ privateMarker := by
    rintro rfl
    rw [isWordStart_marker] at h
    cases h
  simp [bareName, hmarker]

/-- What starts a word is one, as far as its characters go. -/
theorem isWord_takeWhile {c : Char} (h : isWordStart c = true) (cs : List Char) :
    isWord (c :: cs.takeWhile isWordPart) = true := by
  rw [isWord, h, Bool.true_and]
  exact List.all_takeWhile

/-- A name is one token. -/
theorem scans_name {name : String} {rest : List Char} (h : isName name = true) (hrest : Delimited rest) :
    Scans name.toList [.ofWord name] rest := by
  obtain ⟨cs, rfl⟩ : ∃ cs, name = String.ofList cs := ⟨name.toList, by simp⟩
  rw [String.toList_ofList]
  unfold isName bareName at h
  rw [String.toList_ofList] at h
  split at h
  · split at h
    · rename_i hc
      obtain rfl := hc
      exact scans_privateName (by simpa using h) hrest
    · exact scans_word (by simpa using h) hrest
  · exact scans_word (by simpa using h) hrest

/-- A word may name a member. -/
theorem memberName?_word (c : Char) (cs : List Char) :
    (Lexeme.word c cs).kind.memberName? = some (String.ofList (c :: cs.takeWhile isWordPart)) := by
  unfold Lexeme.word
  dsimp only
  split
  · rename_i word hword
    exact congrArg some (Keyword.ofSpelling?_eq_some_iff.mp hword)
  · rfl

/-- So its name is one. -/
theorem word_kind {c : Char} (hc : isWordStart c = true) (cs : List Char) :
    ∃ name, isName name = true ∧ (Lexeme.word c cs).kind.memberName? = some name := by
  refine ⟨String.ofList (c :: cs.takeWhile isWordPart), ?_, memberName?_word c cs⟩
  rw [isName, bareName_of_isWordStart hc, String.toList_ofList]
  exact isWord_takeWhile hc cs

/-- Behind the private marker stands a name, or the marker is unknown. -/
theorem privateName_kind (cs : List Char) :
    (∃ name, isName name = true ∧ (Lexeme.privateName privateMarker cs).kind.memberName? = some name) ∨
      (Lexeme.privateName privateMarker cs).kind = .unknown privateMarker := by
  unfold Lexeme.privateName
  split
  · rename_i hstart
    obtain ⟨d, ds, rfl, hd⟩ : ∃ d ds, cs = d :: ds ∧ isWordStart d = true := by
      cases cs with
      | nil => cases hstart
      | cons d ds => exact ⟨d, ds, rfl, by simpa using hstart⟩
    have htake : (d :: ds).takeWhile isWordPart = d :: ds.takeWhile isWordPart := by
      simp [isWordPart_of_isWordStart hd]
    refine .inl ⟨_, ?_, rfl⟩
    rw [htake, isName, bareName, String.toList_ofList]
    simpa using isWord_takeWhile hd ds
  · exact .inr rfl

/-- The token that starts with a character is named by a name, or is the number that starts there, or is neither a
name nor a number. -/
theorem lexeme_kind_cases (offset : Nat) (c : Char) (cs : List Char) :
    (∃ name, isName name = true ∧ (lexeme offset c cs).kind.memberName? = some name) ∨
    (startsNumber c cs = true ∧ (lexeme offset c cs).kind = .number (String.ofList (c :: (Number.tail c cs).1))) ∨
    (lexeme offset c cs).kind.memberName? = none ∧ ∀ text, (lexeme offset c cs).kind ≠ .number text := by
  by_cases hnumber : startsNumber c cs = true
  · rw [lexeme_of_startsNumber hnumber]
    exact .inr (.inl ⟨hnumber, rfl⟩)
  simp only [startsNumber, Bool.or_eq_true, Bool.and_eq_true, beq_iff_eq, not_or, not_and] at hnumber
  unfold lexeme
  split
  · exact .inl (word_kind ‹_› cs)
  rw [if_neg hnumber.1, if_neg (by simpa using hnumber.2)]
  split
  · rename_i hc
    obtain rfl := hc
    rcases privateName_kind cs with hname | hunknown
    · exact .inl hname
    · rw [show '#' = privateMarker from rfl, hunknown]
      exact .inr (.inr ⟨rfl, nofun⟩)
  split
  · exact .inr (.inr ⟨rfl, nofun⟩)
  split
  · exact .inr (.inr ⟨rfl, nofun⟩)
  · unfold Lexeme.mark
    split <;> exact .inr (.inr ⟨rfl, nofun⟩)

/-- A number is the one that starts with its first character. -/
theorem startsNumber_of_kind {offset : Nat} {c : Char} {cs : List Char} {text : String}
    (h : (lexeme offset c cs).kind = .number text) :
    startsNumber c cs = true ∧ text = String.ofList (c :: (Number.tail c cs).1) := by
  rcases lexeme_kind_cases offset c cs with ⟨name, -, hk⟩ | ⟨hc, hk⟩ | ⟨-, hk⟩
  · rw [h] at hk
    cases hk
  · rw [h] at hk
    exact ⟨hc, TokenKind.number.inj hk⟩
  · exact absurd h (hk text)

/-- Every token but the end of the input is read where it starts, with its faults. -/
theorem lexeme_of_mem {offset : Nat} {cs : List Char} {t : Scanned} (ht : t ∈ scanFrom offset cs) :
    t.token.kind = .endOfInput ∨
      ∃ start c rest, t.token.kind = (lexeme start c rest).kind ∧ t.errors = (lexeme start c rest).errors := by
  fun_induction scanFrom offset cs with
  | case1 offset cs gap start h =>
    cases List.mem_singleton.mp ht
    exact .inl rfl
  | case2 offset cs gap start c rest h l stop ih =>
    rcases List.mem_cons.mp ht with rfl | ht
    · exact .inr ⟨start, c, rest, rfl, rfl⟩
    · exact ih ht

/-- Every token but the end of the input starts with a character of the text. -/
theorem exists_lexeme_of_mem {offset : Nat} {cs : List Char} {t : Scanned} (ht : t ∈ scanFrom offset cs) :
    t.token.kind = .endOfInput ∨ ∃ start c rest, t.token.kind = (lexeme start c rest).kind := by
  rcases lexeme_of_mem ht with hend | ⟨start, c, rest, hkind, -⟩
  · exact .inl hend
  · exact .inr ⟨start, c, rest, hkind⟩

/-- The words of a text are names. -/
theorem isName_of_mem {offset : Nat} {cs : List Char} {t : Scanned} (ht : t ∈ scanFrom offset cs) {name : String}
    (h : t.token.kind.memberName? = some name) : isName name = true := by
  rcases exists_lexeme_of_mem ht with hend | ⟨start, c, rest, hkind⟩
  · rw [hend] at h
    cases h
  rw [hkind] at h
  rcases lexeme_kind_cases start c rest with ⟨name', hname, hk⟩ | ⟨-, hk⟩ | ⟨hk, -⟩ <;> rw [hk] at h
  · cases h
    exact hname
  · cases h
  · cases h

/-- A number of a text is the one that starts with some character of it. -/
theorem startsNumber_of_mem {offset : Nat} {cs : List Char} {t : Scanned} (ht : t ∈ scanFrom offset cs) {text : String}
    (h : t.token.kind = .number text) :
    ∃ c ds, startsNumber c ds = true ∧ text = String.ofList (c :: (Number.tail c ds).1) := by
  rcases exists_lexeme_of_mem ht with hend | ⟨start, c, ds, hkind⟩
  · rw [hend] at h
    cases h
  · exact ⟨c, ds, startsNumber_of_kind (hkind.symm.trans h)⟩

end ContractCompiler.Token
