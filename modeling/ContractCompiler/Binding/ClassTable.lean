import ContractCompiler.Journal
import ContractCompiler.Tree.SourceFile

/-!
# The class table

The classes of a file by name. A class declared again keeps the place of its first declaration, and the
later declaration counts.
-/

namespace ContractCompiler

/-- Classes with different names, in the order in which the names were first declared. -/
structure ClassTable where
  classes : List ClassDecl
deriving Repr

namespace ClassTable

/-- The table without classes. -/
def empty : ClassTable := ⟨[]⟩

/-- The names of the classes. -/
def names (t : ClassTable) : List String := t.classes.map fun c => c.name.name

/-- Whether a class of this name is in the table. -/
def contains (t : ClassTable) (name : String) : Bool := t.names.contains name

/-- Adds a class at the end, or in the place of the class of its name. -/
def insert (t : ClassTable) (decl : ClassDecl) : ClassTable :=
  if t.contains decl.name.name then
    ⟨t.classes.map fun c => if c.name.name = decl.name.name then decl else c⟩
  else ⟨t.classes ++ [decl]⟩

/-- The classes of a file. -/
def ofFile (file : SourceFile) : ClassTable := file.classes.foldl insert empty

/-- What is noted when the classes are added to `t` one after the other. -/
def eventsFrom (t : ClassTable) : List ClassDecl → Journal
  | [] => []
  | decl :: decls =>
    let name := decl.name.name
    let again := if t.contains name then [.redeclared name] else []
    .discovered name :: again ++ eventsFrom (t.insert decl) decls

/-- What is noted when the classes of a file are collected. -/
def events (file : SourceFile) : Journal := eventsFrom empty file.classes

end ClassTable

end ContractCompiler
