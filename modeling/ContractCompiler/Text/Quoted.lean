import ContractCompiler.Text.Attached
import ContractCompiler.Text.Unassigned

/-!
# Quoted text

Texts inside double quotes: in messages every character that would not show is written as an escape,
and in JSON only quotes, backslashes and the characters below U+0020 are. What does not show are
controls, formatting characters, blanks other than the space, characters drawn with the one before
them, and code points that are private or not assigned at all.
-/

namespace ContractCompiler.Text

/-! ## Characters that do not show -/

/-- The ranges of control characters. -/
def controlRanges : List (Nat × Nat) :=
  [(0x0, 0x1F), (0x7F, 0x9F)]

/-- The ranges of formatting characters, which say how others are drawn. -/
def formatRanges : List (Nat × Nat) :=
  [(0xAD, 0xAD), (0x600, 0x605), (0x61C, 0x61C), (0x6DD, 0x6DD), (0x70F, 0x70F), (0x890, 0x891),
   (0x8E2, 0x8E2), (0x180E, 0x180E), (0x200B, 0x200F), (0x202A, 0x202E), (0x2060, 0x2064),
   (0x2066, 0x206F), (0xFEFF, 0xFEFF), (0xFFF9, 0xFFFB), (0x110BD, 0x110BD), (0x110CD, 0x110CD),
   (0x13430, 0x1343F), (0x1BCA0, 0x1BCA3), (0x1D173, 0x1D17A), (0xE0001, 0xE0001),
   (0xE0020, 0xE007F)]

/-- The ranges whose characters are a matter of private agreement. -/
def privateRanges : List (Nat × Nat) :=
  [(0xE000, 0xF8FF), (0xF0000, 0xFFFFD), (0x100000, 0x10FFFD)]

/-- Whether `c` is a control character. -/
def isControl (c : Char) : Bool := inRanges controlRanges c

/-- Whether `c` does not show by itself. -/
def isUnseen (c : Char) : Bool :=
  isControl c || inRanges formatRanges c || inRanges privateRanges c || (isBlank c && c ≠ ' ') ||
    isAttached c || isUnassigned c

/-! ## Quotes in messages -/

/-- The hexadecimal digits of `n`, in lower case and without leading zeros. -/
def hexText (n : Nat) : String := String.ofList (Nat.toDigits 16 n)

/-- A character as it is written between the quotes. -/
def quotedChar (c : Char) : String :=
  if c = '\x00' then "\\0"
  else if c = '\t' then "\\t"
  else if c = '\n' then "\\n"
  else if c = '\r' then "\\r"
  else if c = '\\' then "\\\\"
  else if c = '\x22' then "\\\""
  else if isUnseen c then "\\u\x7b" ++ hexText c.toNat ++ "\x7d"
  else String.singleton c

/-- A text in double quotes. -/
def quoted (s : String) : String := "\"" ++ String.join (s.toList.map quotedChar) ++ "\""

/-! ## JSON strings -/

/-- The four hexadecimal digits of a number below 65536. -/
def fourHexDigits (n : Nat) : List Char :=
  [Nat.digitChar (n / 4096 % 16), Nat.digitChar (n / 256 % 16), Nat.digitChar (n / 16 % 16),
   Nat.digitChar (n % 16)]

/-- A character between the quotes of a JSON string. -/
def jsonChar (c : Char) : List Char :=
  if c = '\x22' then ['\\', '\x22']
  else if c = '\\' then ['\\', '\\']
  else if c = '\x08' then ['\\', 'b']
  else if c = '\x0c' then ['\\', 'f']
  else if c = '\n' then ['\\', 'n']
  else if c = '\r' then ['\\', 'r']
  else if c = '\t' then ['\\', 't']
  else if c.toNat < 0x20 then '\\' :: 'u' :: fourHexDigits c.toNat
  else [c]

/-- A text as a JSON string. -/
def jsonString (s : String) : String :=
  String.ofList ('\x22' :: (s.toList.flatMap jsonChar ++ ['\x22']))

end ContractCompiler.Text
