import ContractCompiler.Binding.ClassTable

/-!
# Binding the receiver

The receiver is recognised by binding and not by spelling. Its names in a file are the local names under
which it is imported, or its own name if it is not imported, less the names of the file's classes. A
parameter or a local variable hides it within its scope. Every member access on the receiver is bound,
once, to what it resolves to, and found again by its span.
-/

namespace ContractCompiler

/-- A member access on the receiver. -/
structure Access where
  receiver : String
  member : String
  span : Span
deriving DecidableEq, Repr

/-- What an access resolves to. -/
def Access.target (a : Access) : Target := Target.ofMember a.member

/-- What is noted when an access is bound. -/
def Access.event (a : Access) : Event := .bound a.receiver a.member a.span a.target

/-- Where names are looked up: the names of the receiver in the file, and the names that scopes around
the place declare. -/
structure Scope where
  receivers : List String
  declared : List String
deriving Repr

namespace Scope

/-- The scope inside which `names` are declared too. -/
def declare (scope : Scope) (names : List String) : Scope :=
  { scope with declared := names ++ scope.declared }

/-- Whether a name stands for the receiver. -/
def isReceiver (scope : Scope) (name : String) : Bool :=
  scope.receivers.contains name && !scope.declared.contains name

/-- The access an expression makes by itself. -/
def access? (scope : Scope) : Expr → Option Access
  | .member span (.ident receiver) member =>
    if scope.isReceiver receiver.name then some ⟨receiver.name, member.name, span⟩ else none
  | _ => none

/-- The accesses inside an expression, an expression before its parts. -/
def exprAccesses (scope : Scope) (e : Expr) : List Access := e.subexprs.filterMap scope.access?

/-- The accesses inside an optional expression. -/
def optionAccesses (scope : Scope) (e : Option Expr) : List Access :=
  e.toList.flatMap scope.exprAccesses

mutual

/-- The accesses inside a statement. A branch or loop body that is a declaration keeps it to itself; a
block holds the declarations of all its statements; the variables of a `for` hold in the whole of it,
but the variable of a `for` over a collection only in its body. -/
def stmtAccesses (scope : Scope) : Stmt → List Access
  | .var _ _ decls => (decls.filterMap Declarator.init).flatMap scope.exprAccesses
  | .expr _ e | .throw _ e => scope.exprAccesses e
  | .return_ _ value => scope.optionAccesses value
  | .if_ _ cond thenBranch elseBranch =>
    scope.exprAccesses cond ++
      stmtAccesses (scope.declare thenBranch.declaredNames) thenBranch ++
      branchAccesses scope elseBranch
  | .while_ _ cond body | .doWhile _ body cond =>
    scope.exprAccesses cond ++ stmtAccesses (scope.declare body.declaredNames) body
  | .for_ _ init test update body =>
    let inside := scope.declare (init.toList.flatMap Stmt.declaredNames)
    headerAccesses inside init ++ inside.optionAccesses test ++ inside.optionAccesses update ++
      stmtAccesses (inside.declare body.declaredNames) body
  | .forEach _ _ binding _ iterable body =>
    let inside := scope.declare [binding.name]
    scope.exprAccesses iterable ++ stmtAccesses (inside.declare body.declaredNames) body
  | .block _ stmts => listAccesses (scope.declare (stmts.flatMap Stmt.declaredNames)) stmts
  | .break_ _ | .continue_ _ | .empty _ => []

/-- The accesses inside an optional branch. -/
def branchAccesses (scope : Scope) : Option Stmt → List Access
  | none => []
  | some s => stmtAccesses (scope.declare s.declaredNames) s

/-- The accesses inside the optional initializer of a `for`. -/
def headerAccesses (scope : Scope) : Option Stmt → List Access
  | none => []
  | some s => stmtAccesses scope s

/-- The accesses inside statements of one block. -/
def listAccesses (scope : Scope) : List Stmt → List Access
  | [] => []
  | s :: ss => stmtAccesses scope s ++ listAccesses scope ss

end

/-- The accesses inside a block. -/
def blockAccesses (scope : Scope) (block : Block) : List Access :=
  listAccesses (scope.declare (block.stmts.flatMap Stmt.declaredNames)) block.stmts

/-- The accesses inside a callable: its defaults, where its parameters do not hold yet, and its body,
where they do. -/
def callableAccesses (scope : Scope) (params : List Param) (body : Option Block) : List Access :=
  let inside := scope.declare (params.map fun p => p.name.name)
  (params.filterMap Param.default).flatMap scope.exprAccesses ++
    body.toList.flatMap inside.blockAccesses

/-- The accesses inside a class member. -/
def memberAccesses (scope : Scope) (m : Member) : List Access :=
  match m.shape with
  | .property _ _ init => scope.optionAccesses init
  | .constructor params body | .method _ params _ body | .accessor _ _ params _ body =>
    scope.callableAccesses params body
  | .indexSignature .. => []

end Scope

/-- What the accesses of a file resolve to, by the span of the access. -/
structure Bindings where
  entries : List (Span × Target)
deriving Repr

namespace Bindings

/-- No bindings. -/
def empty : Bindings := ⟨[]⟩

/-- Binds the access at `span`; an earlier binding of the same span gives way. -/
def insert (b : Bindings) (span : Span) (target : Target) : Bindings :=
  ⟨b.entries.filter (fun entry => entry.1 ≠ span) ++ [(span, target)]⟩

/-- What the access at `span` is bound to. -/
def get? (b : Bindings) (span : Span) : Option Target :=
  (b.entries.find? fun entry => entry.1 = span).map Prod.snd

/-- The number of bindings. -/
def size (b : Bindings) : Nat := b.entries.length

/-- The bindings of a list of accesses. -/
def ofAccesses (accesses : List Access) : Bindings :=
  accesses.foldl (fun b a => b.insert a.span a.target) empty

end Bindings

namespace SourceFile

/-- The local names under which `receiver` is imported. -/
def importedAs (file : SourceFile) (receiver : String) : List String :=
  (file.imports.flatMap Import.named).filterMap fun spec =>
    if spec.imported.name = receiver then some spec.localName.name else none

/-- The names of the receiver before classes hide any: those it is imported under, or its own. -/
def candidateReceivers (file : SourceFile) (receiver : String) : List String :=
  match (file.importedAs receiver).eraseDups with
  | [] => [receiver]
  | names => names

/-- The names of the receiver in a file. -/
def receivers (file : SourceFile) (receiver : String) : List String :=
  (file.candidateReceivers receiver).filter fun name => !(ClassTable.ofFile file).contains name

/-- The accesses to the receiver in the classes of a file, in the order of the class table. -/
def accesses (file : SourceFile) (receiver : String) : List Access :=
  let scope : Scope := ⟨file.receivers receiver, []⟩
  (ClassTable.ofFile file).classes.flatMap fun c => c.members.flatMap scope.memberAccesses

/-- The bindings of a file. -/
def bindings (file : SourceFile) (receiver : String) : Bindings :=
  Bindings.ofAccesses (file.accesses receiver)

/-- What is noted when the accesses of a file are bound. -/
def bindingEvents (file : SourceFile) (receiver : String) : Journal :=
  let table := ClassTable.ofFile file
  let hidden := (file.candidateReceivers receiver).filter table.contains
  let found :=
    if (file.receivers receiver).isEmpty then []
    else (file.accesses receiver).map Access.event ++
      [.boundTotal (file.bindings receiver).size]
  ClassTable.events file ++ hidden.map Event.shadowed ++ found

end SourceFile

end ContractCompiler
