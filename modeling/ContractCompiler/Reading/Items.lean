import ContractCompiler.Reading.Classes
import ContractCompiler.Token.Scan

/-!
# Reading source files

The grammar of imports and other items, and `parse`, which reads a whole source text. There is always a
file; the errors say whether it may be used.
-/

namespace ContractCompiler

/-- What reading a source text gives. -/
structure ParseResult where
  file : SourceFile
  /-- The errors, in the order of the places where they start. -/
  errors : List ParseError
  journal : Journal

/-- Whether `type` at the cursor only marks the import: a brace or a word follows it. -/
def Cursor.atTypeImport (c : Cursor) : Bool :=
  c.here.kind = .keyword .type &&
    match c.kindAt 1 with
    | .mark .lbrace | .ident _ => true
    | _ => false

namespace Parser

/-- The module path of an import and its optional semicolon. -/
def importPath (what : Missing) : Parser String := do
  match (← here).kind with
  | .string path =>
    advance
    discard (accept .semicolon)
    return path
  | _ => missing what

/-- The word `from` and the path of an import. -/
def importFrom : Parser String := do
  expectWord .from_ .importFrom
  importPath .importPath

/-- One `name` or `name as local` of an import. -/
def importSpecifier : Parser ImportSpecifier := do
  let imported ← declaredIdent .importedName
  if ← acceptWord .as then return ⟨imported, ← bindingIdent .localName⟩
  else return ⟨imported, imported⟩

/-- The names an import binds besides the default one, and its path. -/
def importNames (default : Option Ident) : Parser Import := do
  if ← accept .star then
    expectWord .as .importAs
    let name ← bindingIdent .importNamespace
    return ⟨default, some name, [], ← importFrom⟩
  else if ← accept .lbrace then
    let named ← listUpTo .rbrace .importSeparator importSpecifier
    return ⟨default, none, named, ← importFrom⟩
  else return ⟨default, none, [], ← importFrom⟩

/-- An import declaration from the word `import`. -/
def importDecl : Parser Import := do
  advance
  if (← get).atTypeImport then advance
  let token ← here
  match token.kind with
  | .string _ => return ⟨none, none, [], ← importPath .importPath⟩
  | kind =>
    match kind.bindingName? with
    | some name =>
      advance
      let default := some ⟨name, token.span⟩
      if ← accept .comma then importNames default
      else return ⟨default, none, [], ← importFrom⟩
    | none => importNames none

/-- A top-level item. -/
def item : Parser Item := do
  let start := (← here).span.start
  let decs ← decorators
  let exported ← acceptWord .export_
  if exported then discard (acceptWord .default)
  let next ← kindAt 1
  let shape ←
    match (← here).kind with
    | .keyword .class_ => .class_ <$> classDecl decs false start
    | .keyword .abstract =>
      if next = .keyword .class_ then do
        advance
        .class_ <$> classDecl decs true start
      else do
        skip Cursor.otherStep .fresh
        pure .other
    | .keyword .import_ =>
      if !exported && decs.isEmpty then .import_ <$> importDecl
      else do
        skip Cursor.otherStep .fresh
        pure .other
    | _ => do
      skip Cursor.otherStep .fresh
      pure .other
  return ⟨exported, shape, ← spanFrom start⟩

/-- All items up to the end of the input. An item that cannot be read is skipped. -/
def items : Parser (List Item) :=
  collect do
    if ← atEnd then return ([], false)
    match ← attempt item with
    | some i => return ([i], true)
    | none =>
      skip Cursor.otherStep .fresh
      return ([], true)

end Parser

/-- Reads the items of a token list and gives the state at the end. -/
def readTokens (tokens : List Token) : List Item × ParserState :=
  match Parser.items ⟨Cursor.start tokens, [], []⟩ with
  | .ok items s => (items, s)
  | .error e s => ([], { s with errors := s.errors ++ [e] })

/-- The errors found while scanning, as parse errors. -/
def lexErrors (scanned : List Token.Scanned) : List ParseError :=
  (scanned.flatMap Token.Scanned.errors).map fun e => ⟨.lexical e.fault, e.span⟩

/-- Errors in the order of the places where they start; errors at one place keep their order. -/
def sortErrors (errors : List ParseError) : List ParseError :=
  errors.mergeSort fun a b => a.span.start ≤ b.span.start

/-- Reads a source text. -/
def parse (source : String) : ParseResult :=
  let scanned := Token.scan source
  let tokens := scanned.map Token.Scanned.token
  let (items, state) := readTokens tokens
  let errors := sortErrors (lexErrors scanned ++ state.errors)
  ⟨⟨items⟩, errors,
    .lexed tokens.length :: state.journal ++ [.parsed items.length errors.length]⟩

end ContractCompiler
