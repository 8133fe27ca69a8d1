import ContractCompiler.Reading.Statements
import ContractCompiler.Tree.SourceFile

/-!
# Reading classes

The grammar of class declarations and their members. A member that cannot be read is skipped, and the
class goes on after it.
-/

namespace ContractCompiler

/-- The modifier a keyword stands for. -/
def Keyword.modifier? : Keyword → Option Modifier
  | .public_ => some .public_
  | .private_ => some .private_
  | .protected_ => some .protected_
  | .static => some .static
  | .readonly => some .readonly
  | .abstract => some .abstract
  | _ => none

/-- Whether a token of this kind, after a word, shows that the word is a member's own name. -/
def TokenKind.followsName : TokenKind → Bool
  | .mark .lparen | .mark .colon | .mark .eq | .mark .semicolon | .mark .question | .mark .bang
  | .mark .lt | .mark .rbrace => true
  | _ => false

/-- The modifier at the cursor; a modifier word that names a member itself is none. -/
def Cursor.modifier? (c : Cursor) : Option Modifier :=
  match c.here.kind with
  | .keyword word => if (c.kindAt 1).followsName then none else word.modifier?
  | _ => none

namespace Parser

/-- The modifiers at the cursor. -/
def modifiers : Parser (List Modifier) :=
  collect do
    match (← get).modifier? with
    | some m =>
      advance
      return ([m], true)
    | none => return ([], false)

/-- The decorators at the cursor. A decorator without a name ends them. -/
def decorators : Parser (List Decorator) :=
  collect do
    let token ← here
    if ← accept .atSign then
      match ← attempt (declaredIdent .decoratorName) with
      | none => return ([], false)
      | some name =>
        let args ← after .lparen decoratorArgs
        return ([⟨name, args, ← spanFrom token.span.start⟩], true)
    else return ([], false)

/-- One parameter. -/
def param : Parser Param := do
  let start := (← here).span.start
  let mods ← modifiers
  let name ← bindingIdent .paramName
  let optional ← accept .question
  let type ← annotation
  let default ← after .eq expression
  return ⟨name, type, optional, default, mods, ← spanFrom start⟩

/-- Parameters after an opening parenthesis, through the closing one. -/
def params : Parser (List Param) := listUpTo .rparen .paramSeparator param

/-- A body, or the optional semicolon of a signature without one. -/
def body : Parser (Option Block) := do
  if ← check (.mark .lbrace) then some <$> block
  else
    discard (accept .semicolon)
    return none

/-- An accessor, from the word `get` or `set`. -/
def accessor (kind : AccessorKind) : Parser MemberShape := do
  advance
  let name ← declaredIdent .accessorName
  expect .lparen .accessorParams
  let ps ← params
  let returns ← annotation
  return .accessor kind name ps returns (← body)

/-- An index signature, from its opening bracket. -/
def indexSignature : Parser MemberShape := do
  advance
  let key ← bindingIdent .indexKey
  expect .colon .indexKeyColon
  let keyType ← typeExpr
  expect .rbracket .indexKeyClose
  expect .colon .indexValueColon
  let valueType ← typeExpr
  discard (accept .semicolon)
  return .indexSignature key keyType valueType

/-- A method or a property, from its name. -/
def namedMember : Parser MemberShape := do
  let name ← declaredIdent .member
  unless ← accept .question do discard (accept .bang)
  if (← check (.mark .lparen)) || (← check (.mark .lt)) then
    skipAngles
    expect .lparen .methodParams
    let ps ← params
    let returns ← annotation
    return .method name ps returns (← body)
  else
    let type ← annotation
    let init ← after .eq expression
    terminator
    return .property name type init

/-- What a member is, after its decorators and modifiers. -/
def memberShape : Parser MemberShape := do
  let next ← kindAt 1
  match (← here).kind with
  | .keyword .get => if next.declaredName?.isSome then accessor .get else namedMember
  | .keyword .set => if next.declaredName?.isSome then accessor .set else namedMember
  | .mark .lbracket => indexSignature
  | .keyword .constructor =>
    if next = .mark .lparen then
      advanceBy 2
      let ps ← params
      return .constructor ps (← body)
    else namedMember
  | _ => namedMember

/-- A class member. -/
def member : Parser Member := do
  let start := (← here).span.start
  let decs ← decorators
  let mods ← modifiers
  let shape ← memberShape
  return ⟨decs, mods, shape, ← spanFrom start⟩

/-- Members up to a closing brace or the end of the input. -/
def members : Parser (List Member) :=
  collect do
    if ← atEnd then return ([], false)
    if ← accept .rbrace then return ([], false)
    if ← accept .semicolon then return ([], true)
    match ← attempt member with
    | some m => return ([m], true)
    | none =>
      skip Cursor.memberStep 0
      return ([], true)

/-- The base class after `extends`. -/
def baseClass : Parser (Option (List Ident)) := do
  if ← acceptWord .extends_ then
    let first ← bindingIdent .baseName
    let path ← dottedFrom first .baseSegment
    skipAngles
    return some path
  else return none

/-- A class declaration from the word `class`; `start` is where its item starts. -/
def classDecl (decs : List Decorator) (isAbstract : Bool) (start : Nat) : Parser ClassDecl := do
  advance
  let name ← bindingIdent .className
  skipAngles
  let base ← baseClass
  skip Cursor.headerStep ()
  expect .lbrace .classBody
  let ms ← members
  note (.parsedClass name.name ms.length)
  return ⟨name, base, decs, isAbstract, ms, ← spanFrom start⟩

end Parser

end ContractCompiler
