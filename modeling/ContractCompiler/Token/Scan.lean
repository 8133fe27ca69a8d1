import ContractCompiler.Text.Character
import ContractCompiler.Token.Escape

/-!
# Scanning a source text

`scan` cuts a source text into tokens. Between two tokens stand blanks and comments (`trivia`); at a
character that starts neither, `lexeme` takes the token that starts there. Each token comes with the
faults found in it, and the last one, and only it, is the end of the input.
-/

namespace ContractCompiler.Token

open Text

/-- What the text between two tokens is read as. -/
inductive Trivia where
  | blank
  | lineComment
  | blockComment

/-- Takes blanks and comments. A line comment ends with its line; a block comment ends after `*/`, or
at the end of the text. -/
def trivia : Trivia → List Char → List Char × List Char
  | _, [] => ([], [])
  | .blank, '/' :: '/' :: cs =>
    let r := trivia .lineComment cs
    ('/' :: '/' :: r.1, r.2)
  | .blank, '/' :: '*' :: cs =>
    let r := trivia .blockComment cs
    ('/' :: '*' :: r.1, r.2)
  | .blank, c :: cs =>
    if isBlank c then
      let r := trivia .blank cs
      (c :: r.1, r.2)
    else ([], c :: cs)
  | .lineComment, c :: cs =>
    let r := trivia (if c = '\n' then .blank else .lineComment) cs
    (c :: r.1, r.2)
  | .blockComment, '*' :: '/' :: cs =>
    let r := trivia .blank cs
    ('*' :: '/' :: r.1, r.2)
  | .blockComment, c :: cs =>
    let r := trivia .blockComment cs
    (c :: r.1, r.2)

/-- What follows the opening quote of a string: the characters it stands for, the text of the string,
what is left, the faults of its escapes, and whether it is closed. -/
structure Quoted where
  value : List Char
  taken : List Char
  rest : List Char
  errors : List LexError
  closed : Bool

/-- Reads a string after its opening quote, up to the closing one, the end of the line or the end of
the text. `offset` is where `cs` starts in the source. -/
def quoted (quote : Char) (offset : Nat) (cs : List Char) : Quoted :=
  match cs with
  | [] => ⟨[], [], [], [], false⟩
  | c :: cs =>
    if c = '\n' then ⟨[], [], c :: cs, [], false⟩
    else if c = quote then ⟨[], [c], cs, [], true⟩
    else if c = '\\' then
      let e := Escape.read cs
      let stop := offset + 1 + utf8Length e.taken
      let r := quoted quote stop e.rest
      let value := match e.meaning with
        | .char d => d :: r.value
        | .nothing | .invalid _ => r.value
      let errors := match e.meaning with
        | .invalid fault => ⟨fault, ⟨offset, stop⟩⟩ :: r.errors
        | .char _ | .nothing => r.errors
      ⟨value, c :: e.taken ++ r.taken, r.rest, errors, r.closed⟩
    else
      let r := quoted quote (offset + c.utf8Size) cs
      ⟨c :: r.value, c :: r.taken, r.rest, r.errors, r.closed⟩
termination_by cs.length
decreasing_by
  · have := Escape.length_rest_le cs
    simp only [List.length_cons]
    omega
  · simp

/-- Reads a template after its opening backquote: its body, what is left after the closing backquote,
and whether there is one. A backslash keeps the character after it in the body. -/
def templateBody : List Char → List Char × List Char × Bool
  | [] => ([], [], false)
  | ['\\'] => (['\\'], [], false)
  | '\\' :: c :: cs =>
    let r := templateBody cs
    ('\\' :: c :: r.1, r.2)
  | c :: cs =>
    if c = '\x60' then ([], cs, true)
    else
      let r := templateBody cs
      (c :: r.1, r.2)

/-- One token of a text: its kind, its characters, the text after it and its faults. -/
structure Lexeme where
  kind : TokenKind
  text : List Char
  rest : List Char
  errors : List LexError

namespace Lexeme

/-- The word that starts with `c`. -/
def word (c : Char) (cs : List Char) : Lexeme :=
  let text := c :: cs.takeWhile isWordPart
  let name := String.ofList text
  let kind := match Keyword.ofSpelling? name with
    | some k => .keyword k
    | none => .ident name
  ⟨kind, text, cs.dropWhile isWordPart, []⟩

/-- The number that starts with `c`. -/
def number (c : Char) (cs : List Char) : Lexeme :=
  let r := Number.tail c cs
  ⟨.number (String.ofList (c :: r.1)), c :: r.1, r.2, []⟩

/-- The private name that the marker `c` starts, or the marker alone when no word follows it. -/
def privateName (c : Char) (cs : List Char) : Lexeme :=
  if cs.head?.any isWordStart then
    let text := c :: cs.takeWhile isWordPart
    ⟨.privateName (String.ofList text), text, cs.dropWhile isWordPart, []⟩
  else ⟨.unknown c, [c], cs, []⟩

/-- The string that the quote `c` at `offset` opens. -/
def string (offset : Nat) (c : Char) (cs : List Char) : Lexeme :=
  let r := quoted c (offset + c.utf8Size) cs
  let text := c :: r.taken
  let unclosed := if r.closed then []
    else [⟨.unterminatedString, ⟨offset, offset + utf8Length text⟩⟩]
  ⟨.string (String.ofList r.value), text, r.rest, r.errors ++ unclosed⟩

/-- The template that the backquote `c` at `offset` opens. -/
def template (offset : Nat) (c : Char) (cs : List Char) : Lexeme :=
  let r := templateBody cs
  let text := c :: r.1 ++ (if r.2.2 then [c] else [])
  let unclosed := if r.2.2 then []
    else [⟨.unterminatedTemplate, ⟨offset, offset + utf8Length text⟩⟩]
  ⟨.template (String.ofList r.1), text, r.2.1, unclosed⟩

/-- The mark that the text `c :: cs` starts with, or `c` as an unknown character. -/
def mark (c : Char) (cs : List Char) : Lexeme :=
  match Mark.longest? (c :: cs) with
  | some m => ⟨.mark m, m.chars, (c :: cs).drop m.chars.length, []⟩
  | none => ⟨.unknown c, [c], cs, []⟩

end Lexeme

/-- The token that starts with `c` at `offset`, `cs` being the text after `c`. -/
def lexeme (offset : Nat) (c : Char) (cs : List Char) : Lexeme :=
  if isWordStart c then Lexeme.word c cs
  else if c.isDigit then Lexeme.number c cs
  else if c = '.' && cs.head?.any Char.isDigit then Lexeme.number c cs
  else if c = '#' then Lexeme.privateName c cs
  else if c = '\x22' || c = '\x27' then Lexeme.string offset c cs
  else if c = '\x60' then Lexeme.template offset c cs
  else Lexeme.mark c cs

theorem trivia_append (t : Trivia) (cs : List Char) : (trivia t cs).1 ++ (trivia t cs).2 = cs := by
  fun_induction trivia t cs <;> simp_all +zetaDelta

theorem quoted_append (quote : Char) (offset : Nat) (cs : List Char) :
    (quoted quote offset cs).taken ++ (quoted quote offset cs).rest = cs := by
  fun_induction quoted quote offset cs with
  | case1 => rfl
  | case2 => rfl
  | case3 => rfl
  | case4 _ cs e _ _ _ _ _ _ ih =>
    simp +zetaDelta only [List.cons_append, List.append_assoc, ih]
    rw [Escape.taken_append_rest]
  | case5 _ _ _ _ _ _ _ ih => simp +zetaDelta only [List.cons_append, ih]

theorem templateBody_append (cs : List Char) :
    (templateBody cs).1 ++ (if (templateBody cs).2.2 then ['\x60'] else []) ++ (templateBody cs).2.1
      = cs := by
  fun_induction templateBody cs <;> simp_all +zetaDelta

/-- A token and the text after it make up the text it was read from. -/
theorem lexeme_append (offset : Nat) (c : Char) (cs : List Char) :
    (lexeme offset c cs).text ++ (lexeme offset c cs).rest = c :: cs := by
  unfold lexeme
  split
  · exact congrArg (c :: ·) List.takeWhile_append_dropWhile
  split
  · exact congrArg (c :: ·) (Number.faithful_tail c cs)
  split
  · exact congrArg (c :: ·) (Number.faithful_tail c cs)
  split
  · unfold Lexeme.privateName
    split
    · exact congrArg (c :: ·) List.takeWhile_append_dropWhile
    · rfl
  split
  · exact congrArg (c :: ·) (quoted_append _ _ _)
  split
  · rename_i h
    subst h
    have h := templateBody_append cs
    simp only [Lexeme.template, List.cons_append]
    rw [h]
  · unfold Lexeme.mark
    split
    · rename_i m hm
      obtain ⟨t, ht⟩ := Mark.isPrefix_of_longest? hm
      simp [← ht]
    · rfl

theorem lexeme_text_ne_nil (offset : Nat) (c : Char) (cs : List Char) :
    (lexeme offset c cs).text ≠ [] := by
  unfold lexeme
  repeat' split
  · simp [Lexeme.word]
  · simp [Lexeme.number]
  · simp [Lexeme.number]
  · unfold Lexeme.privateName
    split <;> simp
  · simp [Lexeme.string]
  · simp [Lexeme.template]
  · unfold Lexeme.mark
    split
    · exact Mark.chars_ne_nil _
    · simp

/-- The text after a token is shorter than the text it was read from. -/
theorem length_lexeme_rest_lt (offset : Nat) (c : Char) (cs : List Char) :
    (lexeme offset c cs).rest.length < (c :: cs).length := by
  have h := congrArg List.length (lexeme_append offset c cs)
  have hpos := List.length_pos_iff.2 (lexeme_text_ne_nil offset c cs)
  rw [List.length_append] at h
  omega

theorem length_trivia_rest_le (t : Trivia) (cs : List Char) : (trivia t cs).2.length ≤ cs.length := by
  have h := congrArg List.length (trivia_append t cs)
  rw [List.length_append] at h
  omega

/-- A token with the faults found in it. -/
structure Scanned where
  token : Token
  errors : List LexError
deriving DecidableEq, Repr

/-- The tokens of the text `cs`, which starts at `offset` in the source. -/
def scanFrom (offset : Nat) (cs : List Char) : List Scanned :=
  let gap := (trivia .blank cs).1
  let start := offset + utf8Length gap
  match _h : (trivia .blank cs).2 with
  | [] => [⟨⟨.endOfInput, ⟨start, start⟩, gap.any isLineBreak⟩, []⟩]
  | c :: rest =>
    let l := lexeme start c rest
    let stop := start + utf8Length l.text
    ⟨⟨l.kind, ⟨start, stop⟩, gap.any isLineBreak⟩, l.errors⟩ :: scanFrom stop l.rest
termination_by cs.length
decreasing_by
  have h₁ := length_lexeme_rest_lt (offset + utf8Length (trivia .blank cs).1) c rest
  have h₂ := length_trivia_rest_le .blank cs
  rw [_h] at h₂
  omega

/-- The tokens of a source text, each with its faults. -/
def scan (source : String) : List Scanned := scanFrom 0 source.toList

end ContractCompiler.Token
