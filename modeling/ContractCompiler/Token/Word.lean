import ContractCompiler.Token.Basic
import ContractCompiler.Text.Character
import ContractCompiler.Text.Split

/-!
# Words and numbers

The shapes of the tokens that are plain runs of characters: words, private names and numbers. A number
is kept as written; its shape only decides where it ends.
-/

namespace ContractCompiler.Token

open Text

/-- A character a word may start with. -/
def isWordStart (c : Char) : Bool := c.isAlpha || c == '_' || c == '$'

/-- A character a word may go on with. -/
def isWordPart (c : Char) : Bool := c.isAlphanum || c == '_' || c == '$'

/-- The letters that announce another base than ten after a leading `0`. -/
def isRadixLetter (c : Char) : Bool := "xXoObB".toList.contains c

namespace Number

/-- Digits and the separator `_`. -/
def digits : Split := Split.takeWhile fun c => c.isDigit || c == '_'

/-- A point and the digits after it; a point that no digit follows is left. -/
def fraction : Split
  | '.' :: d :: cs =>
    if d.isDigit then ('.' :: (digits (d :: cs)).1, (digits (d :: cs)).2) else ([], '.' :: d :: cs)
  | cs => ([], cs)

/-- An exponent: `e` or `E`, then a digit or a sign, then digits. -/
def exponent : Split
  | e :: c :: cs =>
    if (e == 'e' || e == 'E') && (c.isDigit || c == '+' || c == '-') then
      (e :: c :: cs.takeWhile Char.isDigit, cs.dropWhile Char.isDigit)
    else ([], e :: c :: cs)
  | cs => ([], cs)

/-- The letter and digits of a number in another base, after its leading `0`. -/
def radixTail : Split :=
  (Split.optional isRadixLetter).andThen (Split.takeWhile fun c => isHexDigit c || c == '_')

/-- The rest of a decimal number that starts with `first`, a digit or a point. -/
def decimalTail (first : Char) : Split :=
  (digits.andThen (if first == '.' then Split.nothing else fraction)).andThen exponent

/-- The rest of a number that starts with `first`, with the `n` of a big integer. -/
def tail (first : Char) : Split := fun cs =>
  let body := if first == '0' && (cs.head?.any isRadixLetter) then radixTail else decimalTail first
  body.andThen (Split.optional (· == 'n')) cs

theorem faithful_digits : Split.Faithful digits := Split.faithful_takeWhile _

theorem faithful_fraction : Split.Faithful fraction := by
  intro cs
  unfold fraction
  split
  · split
    · exact congrArg ('.' :: ·) (faithful_digits _)
    · rfl
  · rfl

theorem faithful_exponent : Split.Faithful exponent := by
  intro cs
  unfold exponent
  split
  · split
    · simp
    · rfl
  · rfl

theorem faithful_radixTail : Split.Faithful radixTail :=
  (Split.faithful_optional _).andThen (Split.faithful_takeWhile _)

theorem faithful_decimalTail (first : Char) : Split.Faithful (decimalTail first) := by
  refine (Split.Faithful.andThen faithful_digits ?_).andThen faithful_exponent
  split
  · exact Split.faithful_nothing
  · exact faithful_fraction

/-- The rest of a number and what follows it make up the text. -/
theorem faithful_tail (first : Char) : Split.Faithful (tail first) := by
  intro cs
  refine (Split.Faithful.andThen ?_ (Split.faithful_optional _)) cs
  split
  · exact faithful_radixTail
  · exact faithful_decimalTail first

end Number

end ContractCompiler.Token
