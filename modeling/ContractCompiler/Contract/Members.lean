import ContractCompiler.Contract.Statements

/-!
# Writing members and contracts

A class becomes a contract: its properties, constructors and methods in the order in which they are
declared. Accessors and index signatures become placeholders. A private marker makes a callable
private and is not written.
-/

namespace ContractCompiler

/-- A finished contract. -/
structure Contract where
  name : String
  lines : List String
deriving DecidableEq, Repr

/-- The text of a contract. -/
def Contract.text (c : Contract) : String := "\n".intercalate c.lines

/-- The name under which a callable is written as a constructor. -/
def constructorName : String := "constructor"

/-- The type and name of a parameter. -/
def Param.solidity (p : Param) : Except RenderError String :=
  match p.type with
  | none => .error (.missingType p.name.name p.name.span)
  | some type => do
    let text ← type.solidity
    return text ++ " " ++ p.name.name

/-- The clause that gives the type of a result, if there is one. -/
def returnsClause : Option TypeExpr → Except RenderError String
  | some type =>
    if type.isVoid then .ok ""
    else do
      let text ← type.solidity
      return " returns (" ++ text ++ ")"
  | none => .ok ""

/-- The first line of a callable. A constructor has neither the word `function` nor a result. -/
def signature (name : String) (params : List Param) (returns : Option TypeExpr) :
    Except RenderError String := do
  let visibility := if isPrivateName name then "private" else "public"
  let texts ← params.mapM Param.solidity
  let list := "(" ++ ", ".intercalate texts ++ ") " ++ visibility
  if bareName name = constructorName then return constructorName ++ list ++ " \x7b"
  else
    let clause ← returnsClause returns
    return "function " ++ bareName name ++ list ++ clause ++ " \x7b"

namespace Writing

/-- Writes a callable: its first line, its body one level deeper, and its closing brace. -/
def callable (b : Bindings) (name : String) (params : List Param) (returns : Option TypeExpr)
    (body : Option Block) : Writing RenderError Unit := do
  line (← ofExcept (signature name params returns))
  match body with
  | some block => indented (stmts b block.stmts)
  | none => pure ()
  line "\x7d"

/-- Writes a property on a line of its own; `span` is that of the member. -/
def property (b : Bindings) (span : Span) (name : Ident) (type : Option TypeExpr)
    (init : Option Expr) : Writing RenderError Unit := do
  match type with
  | none => throw (.missingType name.name span)
  | some type =>
    let typeText ← ofExcept type.solidity
    let value ← match init with
      | some e => do
        let text ← (Rendering.expr b e).onPage
        pure (" = " ++ text)
      | none => pure ""
    line (typeText ++ " " ++ name.bare ++ value ++ ";")

/-- Writes a class member. A method is followed by an empty line. -/
def member (b : Bindings) (m : Member) : Writing RenderError Unit :=
  match m.shape with
  | .property name type init => property b m.span name type init
  | .constructor params body => callable b constructorName params none body
  | .method name params returns body => do
    callable b name.name params returns body
    line ""
  | .accessor .. | .indexSignature .. => do
    note (.unsupportedMember m.shape.kindName m.span)
    line ("/* <member kind=" ++ m.shape.kindName ++ " /> */")

/-- Writes the members of a class. -/
def members (b : Bindings) : List Member → Writing RenderError Unit
  | [] => pure ()
  | m :: ms => do
    member b m
    members b ms

/-- Writes a class as a contract. -/
def contract (b : Bindings) (decl : ClassDecl) : Writing RenderError Unit := do
  note (.rendering decl.name.name)
  line ("contract " ++ decl.name.name ++ " \x7b")
  indented (members b decl.members)
  line "\x7d"

end Writing

/-- The contract of a class, or the failure to write it. -/
def ClassDecl.render (decl : ClassDecl) (indent : String) (b : Bindings) :
    Except RenderError Contract :=
  match Writing.contract b decl (Page.blank indent) with
  | .ok _ page => .ok ⟨decl.name.name, page.lines⟩
  | .error e _ => .error e

/-- What is noted while a class is written. -/
def ClassDecl.renderEvents (decl : ClassDecl) (indent : String) (b : Bindings) : Journal :=
  match Writing.contract b decl (Page.blank indent) with
  | .ok _ page | .error _ page => page.notes

end ContractCompiler
