import ContractCompiler.Tree.Stmt

/-!
# Source files

A file is a list of items: imports, classes, and anything else, of which only the place is kept.
-/

namespace ContractCompiler

/-- The words that may stand before a member or a parameter. They are read and not written. -/
inductive Modifier where
  | public_ | private_ | protected_ | static | readonly | abstract
deriving DecidableEq, Repr

/-- `@Name` or `@Name(args)`. -/
structure Decorator where
  name : Ident
  args : Option (List Expr)
  span : Span
deriving Repr

/-- A parameter of a constructor, a method or an accessor. -/
structure Param where
  name : Ident
  type : Option TypeExpr
  optional : Bool
  default : Option Expr
  modifiers : List Modifier
  span : Span
deriving Repr

/-- Whether an accessor reads or writes. -/
inductive AccessorKind where
  | get | set
deriving DecidableEq, Repr

/-- What a class member is. -/
inductive MemberShape where
  | property (name : Ident) (type : Option TypeExpr) (init : Option Expr)
  | constructor (params : List Param) (body : Option Block)
  | method (name : Ident) (params : List Param) (returns : Option TypeExpr) (body : Option Block)
  | accessor (kind : AccessorKind) (name : Ident) (params : List Param) (returns : Option TypeExpr)
      (body : Option Block)
  /-- `[key: K]: V;` -/
  | indexSignature (key : Ident) (keyType valueType : TypeExpr)
deriving Repr

/-- The name of a member's kind, as placeholders and messages give it. -/
def MemberShape.kindName : MemberShape → String
  | .property .. => "Property"
  | .constructor .. => "Constructor"
  | .method .. => "Method"
  | .accessor .get .. => "GetAccessor"
  | .accessor .set .. => "SetAccessor"
  | .indexSignature .. => "IndexSignature"

/-- A member of a class. -/
structure Member where
  decorators : List Decorator
  modifiers : List Modifier
  shape : MemberShape
  span : Span
deriving Repr

/-- A class declaration. Each becomes a contract. -/
structure ClassDecl where
  name : Ident
  /-- The dotted name after `extends`. -/
  base : Option (List Ident)
  decorators : List Decorator
  isAbstract : Bool
  members : List Member
  span : Span
deriving Repr

/-- `imported as local` between the braces of an import; without `as` the two are the same. -/
structure ImportSpecifier where
  imported : Ident
  localName : Ident
deriving DecidableEq, Repr

/-- An import declaration. -/
structure Import where
  default : Option Ident
  wholeModule : Option Ident
  named : List ImportSpecifier
  source : String
deriving DecidableEq, Repr

/-- What a top-level item is. -/
inductive ItemShape where
  | import_ (decl : Import)
  | class_ (decl : ClassDecl)
  /-- Any other construct. -/
  | other
deriving Repr

/-- A top-level item. -/
structure Item where
  exported : Bool
  shape : ItemShape
  span : Span
deriving Repr

/-- A source file. -/
structure SourceFile where
  items : List Item
deriving Repr

namespace SourceFile

/-- The classes of a file, in source order. -/
def classes (file : SourceFile) : List ClassDecl :=
  file.items.filterMap fun item =>
    match item.shape with
    | .class_ decl => some decl
    | _ => none

/-- The imports of a file, in source order. -/
def imports (file : SourceFile) : List Import :=
  file.items.filterMap fun item =>
    match item.shape with
    | .import_ decl => some decl
    | _ => none

end SourceFile

end ContractCompiler
