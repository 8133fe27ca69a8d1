import ContractCompiler.Token.Basic

/-!
# Parse errors

What can be wrong with a source text: a faulty literal, something the grammar expects and does not
find, or a destructuring pattern. That reading itself has not come to an end would be an error too.
-/

namespace ContractCompiler

/-- The constructs that start with a word and an opening parenthesis. -/
inductive Construct where
  | if_ | while_ | doWhile | for_
deriving DecidableEq, Repr

/-- The name of a construct in messages. -/
def Construct.text : Construct → String
  | .if_ => "if"
  | .while_ => "while"
  | .doWhile => "do-while"
  | .for_ => "for"

/-- What the grammar expects at a place. -/
inductive Missing where
  | importAs | importNamespace | importedName | localName | importSeparator | importFrom | importPath
  | decoratorName
  | className | baseName | baseSegment | classBody
  | member | accessorName | accessorParams | methodParams
  | indexKey | indexKeyColon | indexKeyClose | indexValueColon
  | paramName | paramSeparator
  | type | typeClose | typeSegment | typeArgSeparator
  | block | terminator
  | open_ (construct : Construct)
  | conditionClose | doWhileWord
  | variableName | loopVariable | forEachClose | forInitEnd | forTestEnd | forClose
  | expression | conditionalColon | indexClose | memberName | argSeparator | parenClose
  | elementSeparator | fieldName | fieldSeparator
deriving DecidableEq, Repr

/-- The wording of what is expected. -/
def Missing.text : Missing → String
  | .importAs => "`as` after `*` in import"
  | .importNamespace => "namespace name"
  | .importedName => "imported name"
  | .localName => "local name after `as`"
  | .importSeparator => "`,` or `\x7d` in import list"
  | .importFrom => "`from` in import declaration"
  | .importPath => "module path string"
  | .decoratorName => "decorator name after `@`"
  | .className => "class name after `class`"
  | .baseName => "base class name"
  | .baseSegment => "name after `.`"
  | .classBody => "`\x7b` to start class body"
  | .member => "class member"
  | .accessorName => "accessor name"
  | .accessorParams => "`(` after accessor name"
  | .methodParams => "`(` after method name"
  | .indexKey => "index signature key name"
  | .indexKeyColon => "`:` after index key"
  | .indexKeyClose => "`]` in index signature"
  | .indexValueColon => "`:` after index signature"
  | .paramName => "parameter name"
  | .paramSeparator => "`,` or `)` in parameter list"
  | .type => "type"
  | .typeClose => "`)` after type"
  | .typeSegment => "type name after `.`"
  | .typeArgSeparator => "`,` or `>` in type arguments"
  | .block => "`\x7b` to start block"
  | .terminator => "`;` after statement"
  | .open_ construct => "`(` after `" ++ construct.text ++ "`"
  | .conditionClose => "`)` after condition"
  | .doWhileWord => "`while` after `do` body"
  | .variableName => "variable name"
  | .loopVariable => "loop variable"
  | .forEachClose => "`)` after for-each header"
  | .forInitEnd => "`;` after for initializer"
  | .forTestEnd => "`;` after for condition"
  | .forClose => "`)` after for header"
  | .expression => "expression"
  | .conditionalColon => "`:` in conditional expression"
  | .indexClose => "`]` after index"
  | .memberName => "member name after `.`"
  | .argSeparator => "`,` or `)` in argument list"
  | .parenClose => "`)` after expression"
  | .elementSeparator => "`,` or `]` in array literal"
  | .fieldName => "property name in object literal"
  | .fieldSeparator => "`,` or `\x7d` in object literal"

/-- Why a source text is refused. -/
inductive ParseFault where
  | lexical (fault : LexFault)
  | missing (what : Missing)
  | destructuring
  /-- Reading has reached its bound. No source text leads to this. -/
  | exhausted
deriving DecidableEq, Repr

/-- The wording of a fault. -/
def ParseFault.message : ParseFault → String
  | .lexical fault => fault.message
  | .missing what => "expected " ++ what.text
  | .destructuring => "destructuring patterns are not supported"
  | .exhausted => "reading has reached its bound"

/-- A fault and the part of the source it was found at. -/
structure ParseError where
  fault : ParseFault
  span : Span
deriving DecidableEq, Repr

namespace ParseError

/-- The wording of an error, without its place. -/
def message (e : ParseError) : String := e.fault.message

/-- The wording of an error with its place. -/
def text (e : ParseError) : String := e.message ++ " at " ++ e.span.text

end ParseError

end ContractCompiler
