import ContractCompiler.Reading.Parser
import ContractCompiler.Tree.TypeExpr

/-!
# Reading type annotations

The grammar of annotations. An annotation stands inside another one only after a bracket, so the depth
of nesting is bounded by the number of tokens.
-/

namespace ContractCompiler

/-- The type keyword a token stands for. -/
def TokenKind.typeKeyword? : TokenKind → Option TypeKeyword
  | .keyword .number => some .number
  | .keyword .string => some .string
  | .keyword .boolean => some .boolean
  | .keyword .any => some .any
  | .keyword .void => some .void
  | _ => none

/-- The text of a token that may start a type name: a binding name, `null` or `undefined`. -/
def TokenKind.typeName? : TokenKind → Option String
  | .keyword .null => some Keyword.null.spelling
  | .keyword .undefined => some Keyword.undefined.spelling
  | kind => kind.bindingName?

namespace Parser

/-- A dotted type name with its arguments, each read by `inner`. -/
def namedType (inner : Parser TypeExpr) : Parser TypeExpr := do
  let first ← identBy TokenKind.typeName? .type
  let path ← dottedFrom first .typeSegment
  let args ←
    if ← accept .lt then someUpTo .gt .typeArgSeparator inner else pure []
  return .named (← spanFrom first.span.start) path args

/-- A keyword, an annotation in parentheses, or a name. -/
def primaryType (inner : Parser TypeExpr) : Parser TypeExpr := do
  let token ← here
  match token.kind.typeKeyword? with
  | some word =>
    advance
    return .keyword token.span word
  | none =>
    if ← accept .lparen then
      let type ← inner
      expect .rparen .typeClose
      return type
    else namedType inner

/-- A primary type and the `[]` pairs after it. -/
def arrayType (inner : Parser TypeExpr) : Parser TypeExpr := do
  let start := (← here).span.start
  let elem ← primaryType inner
  chain (fun type => do
    if (← check (.mark .lbracket)) && (← kindAt 1) = .mark .rbracket then
      advanceBy 2
      return some (.array (← spanFrom start) type)
    else return none) elem

/-- A union, with an optional leading `|`, or a single array type. -/
def unionType (inner : Parser TypeExpr) : Parser TypeExpr := do
  let start := (← here).span.start
  discard (accept .pipe)
  let first ← arrayType inner
  if ← check (.mark .pipe) then
    let more ← collect do
      if ← accept .pipe then return ([← arrayType inner], true) else return ([], false)
    return .union (← spanFrom start) (first :: more)
  else return first

/-- An annotation with fewer than `n` annotations around one another. -/
def typeWithin : Nat → Parser TypeExpr
  | 0 => fail .exhausted
  | n + 1 => unionType (typeWithin n)

/-- A type annotation. -/
def typeExpr : Parser TypeExpr := bounded typeWithin

/-- A colon and an annotation, or neither. -/
def annotation : Parser (Option TypeExpr) := after .colon typeExpr

end Parser

end ContractCompiler
