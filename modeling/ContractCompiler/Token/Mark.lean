/-!
# Marks

The punctuation and operator tokens. A text is cut at the longest mark that starts it
(`Mark.longest?`), where `?.` does not count before a digit, so that `a?.5:1` stays a conditional. No
mark has two `>` in a row, so that nested type arguments close one by one; the right shifts are put
together from adjacent marks where an operator is wanted.
-/

namespace ContractCompiler

/-- Punctuation and operators. -/
inductive Mark where
  | lparen | rparen | lbrace | rbrace | lbracket | rbracket | comma | semicolon | colon | dot
  | question | questionDot | coalesce | coalesceEq | atSign | fatArrow | eq | eqEq | eqEqEq
  | bangEq | bangEqEq | lt | gt | le | ge | shl | shlEq | plus | minus | star | starStar
  | starStarEq | slash | percent | plusPlus | minusMinus | plusEq | minusEq | starEq | slashEq
  | percentEq | amp | pipe | caret | ampEq | pipeEq | caretEq | tilde | bang | andAnd | orOr
  | andAndEq | orOrEq
deriving DecidableEq, Repr

namespace Mark

/-- The characters of a mark. -/
def chars : Mark → List Char
  | .lparen => ['(']
  | .rparen => [')']
  | .lbrace => ['{']
  | .rbrace => ['}']
  | .lbracket => ['[']
  | .rbracket => [']']
  | .comma => [',']
  | .semicolon => [';']
  | .colon => [':']
  | .dot => ['.']
  | .question => ['?']
  | .questionDot => ['?', '.']
  | .coalesce => ['?', '?']
  | .coalesceEq => ['?', '?', '=']
  | .atSign => ['@']
  | .fatArrow => ['=', '>']
  | .eq => ['=']
  | .eqEq => ['=', '=']
  | .eqEqEq => ['=', '=', '=']
  | .bangEq => ['!', '=']
  | .bangEqEq => ['!', '=', '=']
  | .lt => ['<']
  | .gt => ['>']
  | .le => ['<', '=']
  | .ge => ['>', '=']
  | .shl => ['<', '<']
  | .shlEq => ['<', '<', '=']
  | .plus => ['+']
  | .minus => ['-']
  | .star => ['*']
  | .starStar => ['*', '*']
  | .starStarEq => ['*', '*', '=']
  | .slash => ['/']
  | .percent => ['%']
  | .plusPlus => ['+', '+']
  | .minusMinus => ['-', '-']
  | .plusEq => ['+', '=']
  | .minusEq => ['-', '=']
  | .starEq => ['*', '=']
  | .slashEq => ['/', '=']
  | .percentEq => ['%', '=']
  | .amp => ['&']
  | .pipe => ['|']
  | .caret => ['^']
  | .ampEq => ['&', '=']
  | .pipeEq => ['|', '=']
  | .caretEq => ['^', '=']
  | .tilde => ['~']
  | .bang => ['!']
  | .andAnd => ['&', '&']
  | .orOr => ['|', '|']
  | .andAndEq => ['&', '&', '=']
  | .orOrEq => ['|', '|', '=']

/-- The spelling of a mark. -/
def spelling (m : Mark) : String := String.ofList m.chars

/-- Every mark, those with longer spellings first. -/
def longestFirst : List Mark :=
  [.coalesceEq, .eqEqEq, .bangEqEq, .shlEq, .starStarEq, .andAndEq, .orOrEq, .questionDot,
   .coalesce, .fatArrow, .eqEq, .bangEq, .le, .ge, .shl, .starStar, .plusPlus, .minusMinus,
   .plusEq, .minusEq, .starEq, .slashEq, .percentEq, .ampEq, .pipeEq, .caretEq, .andAnd, .orOr,
   .lparen, .rparen, .lbrace, .rbrace, .lbracket, .rbracket, .comma, .semicolon, .colon, .dot,
   .question, .atSign, .eq, .lt, .gt, .plus, .minus, .star, .slash, .percent, .amp, .pipe,
   .caret, .tilde, .bang]

/-- Whether the mark counts as a token when `rest` follows it: `?.` does so only before something
other than a digit. -/
def standsBefore : Mark → List Char → Bool
  | .questionDot, c :: _ => !c.isDigit
  | _, _ => true

/-- Whether the mark starts the text `cs`. -/
def starts (m : Mark) (cs : List Char) : Bool :=
  m.chars.isPrefixOf cs && m.standsBefore (cs.drop m.chars.length)

/-- The longest mark that starts the text `cs`. -/
def longest? (cs : List Char) : Option Mark :=
  longestFirst.find? fun m => m.starts cs

theorem mem_longestFirst (m : Mark) : m ∈ longestFirst := by
  cases m <;> decide

/-- A mark found at the front of a text is what the text starts with. -/
theorem isPrefix_of_longest? {cs : List Char} {m : Mark} (h : longest? cs = some m) :
    m.chars <+: cs := by
  have h' := List.find?_some h
  rw [starts, Bool.and_eq_true] at h'
  exact List.isPrefixOf_iff_prefix.1 h'.1

theorem chars_ne_nil (m : Mark) : m.chars ≠ [] := by
  cases m <;> simp [chars]

/-- A mark that starts a text is the one found there if no other mark with its first character starts the text. -/
theorem longest?_eq_some {m : Mark} {c : Char} {cs : List Char} (hm : m.starts (c :: cs) = true)
    (hothers : ∀ other ∈ longestFirst, other.chars.head? = some c → other = m ∨ other.starts (c :: cs) = false) :
    longest? (c :: cs) = some m := by
  cases h : longest? (c :: cs) with
  | none => exact absurd hm (List.find?_eq_none.1 h m (mem_longestFirst m))
  | some other =>
    obtain ⟨rest, hrest⟩ := isPrefix_of_longest? h
    have hhead : other.chars.head? = some c := by
      cases hchars : other.chars with
      | nil => exact absurd hchars other.chars_ne_nil
      | cons d ds =>
        rw [hchars] at hrest
        exact congrArg some (List.cons.inj hrest).1
    rcases hothers other (mem_longestFirst other) hhead with rfl | hfalse
    · rfl
    · exact absurd (List.find?_some h) (by simp [hfalse])

end Mark

end ContractCompiler
