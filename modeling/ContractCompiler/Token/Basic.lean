import ContractCompiler.Span
import ContractCompiler.Token.Keyword
import ContractCompiler.Token.Mark

/-!
# Tokens

A token is a kind, the span it was read from, and whether a line break separates it from the token
before it. A malformed literal still gives a token; what is wrong with it is a `LexFault` beside it.
-/

namespace ContractCompiler

/-- What a token is. -/
inductive TokenKind where
  /-- A word that is no keyword. -/
  | ident (name : String)
  /-- A `#name`; the text keeps the marker. -/
  | privateName (name : String)
  /-- A number, exactly as written. -/
  | number (text : String)
  /-- The characters a quoted string stands for, escapes resolved. -/
  | string (value : String)
  /-- The text between two backquotes, exactly as written. -/
  | template (text : String)
  | keyword (word : Keyword)
  | mark (mark : Mark)
  /-- A character the language has no use for. -/
  | unknown (char : Char)
  | endOfInput
deriving DecidableEq, Repr

/-- A token with its place in the source. -/
structure Token where
  kind : TokenKind
  span : Span
  /-- Whether a line break lies between the token before and this one. -/
  afterBreak : Bool
deriving DecidableEq, Repr

namespace TokenKind

/-- The text of a token that may name a variable, a parameter or a class: a word that is no keyword,
or a contextual keyword. -/
def bindingName? : TokenKind → Option String
  | .ident name => some name
  | .keyword word => if word.isContextual then some word.spelling else none
  | _ => none

/-- The text of a token that may name a member: any word, private names included. -/
def memberName? : TokenKind → Option String
  | .ident name => some name
  | .privateName name => some name
  | .keyword word => some word.spelling
  | _ => none

/-- The text of a token that may name a declared member: any word, or a quoted string. -/
def declaredName? : TokenKind → Option String
  | .string value => some value
  | kind => kind.memberName?

end TokenKind

/-- What can be wrong with a literal. -/
inductive LexFault where
  | unterminatedString
  | unterminatedTemplate
  | invalidHexEscape
  | invalidUnicodeEscape
deriving DecidableEq, Repr

/-- The wording of a fault. -/
def LexFault.message : LexFault → String
  | .unterminatedString => "unterminated string literal"
  | .unterminatedTemplate => "unterminated template literal"
  | .invalidHexEscape => "invalid hexadecimal escape sequence"
  | .invalidUnicodeEscape => "invalid unicode escape sequence"

/-- A fault and the part of the source it was found in. -/
structure LexError where
  fault : LexFault
  span : Span
deriving DecidableEq, Repr

end ContractCompiler
