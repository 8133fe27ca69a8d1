import ContractCompiler.Token.Word

/-!
# Escape sequences

What a backslash and the characters after it stand for inside a quoted string. An escape that cannot
be resolved contributes nothing; the digits it had already taken stay taken, and the string goes on
with the character that stopped it.
-/

namespace ContractCompiler.Token

open Text

/-- The character with code point `n`, if there is one. -/
def scalar? (n : Nat) : Option Char :=
  if h : n.isValidChar then some (Char.ofNatAux n h) else none

namespace Escape

/-- What an escape sequence contributes to its string. -/
inductive Meaning where
  | char (c : Char)
  /-- A line continuation, or a backslash at the end of the text. -/
  | nothing
  | invalid (fault : LexFault)
deriving DecidableEq, Repr

/-- An escape sequence: its meaning, the characters it takes after the backslash, and what is left. -/
structure Reading where
  meaning : Meaning
  taken : List Char
  rest : List Char

/-- Takes hexadecimal digits, `count` at most; their number is given if there are `count`. -/
def hex (count : Nat) (cs : List Char) : Option Nat × List Char × List Char :=
  let ds := (cs.take count).takeWhile isHexDigit
  (if ds.length = count then some (ofDigits 16 ds) else none, ds, cs.drop ds.length)

/-- Takes hexadecimal digits up to a closing brace, with the number `value` of those before, which
were `digits` many. The number is given if there was a digit and it is a code point. The digits are
counted in 32 bits: after 2³¹ of them the count is negative, as if there had been none. -/
def braced (value : Nat) (digits : Int32) : List Char → Option Nat × List Char × List Char
  | [] => (none, [], [])
  | c :: cs =>
    if c = '\x7d' then (if 0 < digits then some value else none, [c], cs)
    else match hexValue? c with
      | none => (none, [], c :: cs)
      | some d =>
        if 16 * value + d > 0x10FFFF then (none, [c], cs)
        else
          let r := braced (16 * value + d) (digits + 1) cs
          (r.1, c :: r.2.1, r.2.2)

/-- Whether `n` is the first half of a surrogate pair. -/
def isHighSurrogate (n : Nat) : Bool := 0xD800 ≤ n && n < 0xDC00

/-- Whether `n` is the second half of a surrogate pair. -/
def isLowSurrogate (n : Nat) : Bool := 0xDC00 ≤ n && n < 0xE000

/-- The code point of a surrogate pair. -/
def pairCode (high low : Nat) : Nat := 0x10000 + (high - 0xD800) * 0x400 + (low - 0xDC00)

/-- The second half of a surrogate pair whose first half is `high`: a backslash, a `u` and four
digits. -/
def lowHalf (high : Nat) : List Char → Option Nat × List Char × List Char
  | '\\' :: 'u' :: cs =>
    let r := hex 4 cs
    (r.1.bind fun low => if isLowSurrogate low then some (pairCode high low) else none,
      '\\' :: 'u' :: r.2.1, r.2.2)
  | cs => (none, [], cs)

/-- The code point after `\u`: digits in braces, four digits, or a surrogate pair. -/
def unicode (cs : List Char) : Option Nat × List Char × List Char :=
  match cs with
  | [] => hex 4 []
  | c :: cs' =>
    if c = '\x7b' then
      let r := braced 0 0 cs'
      (r.1, c :: r.2.1, r.2.2)
    else
      let r := hex 4 cs
      match r.1 with
      | none => r
      | some code =>
        if isHighSurrogate code then
          let l := lowHalf code r.2.2
          (l.1, r.2.1 ++ l.2.1, l.2.2)
        else r

/-- The meaning of a code point that was read, or of `fault` if none was. -/
def meaningOf (fault : LexFault) (code : Option Nat) : Meaning :=
  match code.bind scalar? with
  | some c => .char c
  | none => .invalid fault

/-- The escape sequence that follows a backslash. -/
def read : List Char → Reading
  | [] => ⟨.nothing, [], []⟩
  | c :: cs =>
    match c with
    | 'n' => ⟨.char '\n', [c], cs⟩
    | 't' => ⟨.char '\t', [c], cs⟩
    | 'r' => ⟨.char '\r', [c], cs⟩
    | 'b' => ⟨.char '\x08', [c], cs⟩
    | 'f' => ⟨.char '\x0c', [c], cs⟩
    | 'v' => ⟨.char '\x0b', [c], cs⟩
    | '0' => ⟨.char '\x00', [c], cs⟩
    | '\n' => ⟨.nothing, [c], cs⟩
    | '\u2028' => ⟨.nothing, [c], cs⟩
    | '\u2029' => ⟨.nothing, [c], cs⟩
    | '\r' =>
      let r := Split.optional (· == '\n') cs
      ⟨.nothing, c :: r.1, r.2⟩
    | 'x' =>
      let r := hex 2 cs
      ⟨meaningOf .invalidHexEscape r.1, c :: r.2.1, r.2.2⟩
    | 'u' =>
      let r := unicode cs
      ⟨meaningOf .invalidUnicodeEscape r.1, c :: r.2.1, r.2.2⟩
    | _ => ⟨.char c, [c], cs⟩

theorem hex_append (count : Nat) (cs : List Char) : (hex count cs).2.1 ++ (hex count cs).2.2 = cs := by
  simp only [hex]
  have h : (cs.take count).takeWhile isHexDigit <+: cs :=
    (List.takeWhile_prefix _).trans (List.take_prefix _ _)
  obtain ⟨t, ht⟩ := h
  generalize (cs.take count).takeWhile isHexDigit = ds at ht
  rw [← ht, List.drop_left]

theorem braced_append (value : Nat) (digits : Int32) (cs : List Char) :
    (braced value digits cs).2.1 ++ (braced value digits cs).2.2 = cs := by
  induction cs generalizing value digits with
  | nil => rfl
  | cons c cs ih =>
    rw [braced]
    split
    · rfl
    · split
      · rfl
      · split
        · rfl
        · simp [ih]

theorem lowHalf_append (high : Nat) (cs : List Char) :
    (lowHalf high cs).2.1 ++ (lowHalf high cs).2.2 = cs := by
  unfold lowHalf
  split
  · simp [hex_append]
  · rfl

theorem unicode_append (cs : List Char) : (unicode cs).2.1 ++ (unicode cs).2.2 = cs := by
  unfold unicode
  split
  · exact hex_append 4 []
  · split
    · simp [braced_append]
    · simp only
      split
      · exact hex_append 4 _
      · split
        · rw [List.append_assoc, lowHalf_append, hex_append]
        · exact hex_append 4 _

/-- An escape sequence and what is left after it make up the text after the backslash. -/
theorem taken_append_rest (cs : List Char) : (read cs).taken ++ (read cs).rest = cs := by
  unfold read
  split
  · rfl
  · split <;> first
      | rfl
      | exact congrArg (_ :: ·) (Split.faithful_optional _ _)
      | exact congrArg (_ :: ·) (hex_append 2 _)
      | exact congrArg (_ :: ·) (unicode_append _)

theorem length_rest_le (cs : List Char) : (read cs).rest.length ≤ cs.length := by
  have h := congrArg List.length (taken_append_rest cs)
  rw [List.length_append] at h
  omega

end Escape

end ContractCompiler.Token
