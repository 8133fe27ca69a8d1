/-!
# Keywords

The reserved words of the source language, each with its spelling. Some of them are contextual: they
may still be used as the name of a variable or a parameter.
-/

namespace ContractCompiler

/-- The reserved words. A trailing underscore keeps a name apart from Lean's own word. -/
inductive Keyword where
  | class_ | extends_ | constructor | return_ | if_ | else_ | const | let_ | var | while_ | for_
  | of | in_ | do_ | break_ | continue_ | throw | new | delete | instanceOf | satisfies | this
  | super | true_ | false_ | null | undefined | import_ | export_ | default | from_ | as | typeof
  | void | number | string | boolean | any | public_ | private_ | protected_ | static | readonly
  | abstract | get | set | type | interface | function
deriving DecidableEq, Repr

namespace Keyword

/-- Every keyword. -/
def all : List Keyword :=
  [.class_, .extends_, .constructor, .return_, .if_, .else_, .const, .let_, .var, .while_,
   .for_, .of, .in_, .do_, .break_, .continue_, .throw, .new, .delete, .instanceOf, .satisfies,
   .this, .super, .true_, .false_, .null, .undefined, .import_, .export_, .default, .from_,
   .as, .typeof, .void, .number, .string, .boolean, .any, .public_, .private_, .protected_,
   .static, .readonly, .abstract, .get, .set, .type, .interface, .function]

/-- The spelling of a keyword. -/
def spelling : Keyword → String
  | .class_ => "class"
  | .extends_ => "extends"
  | .constructor => "constructor"
  | .return_ => "return"
  | .if_ => "if"
  | .else_ => "else"
  | .const => "const"
  | .let_ => "let"
  | .var => "var"
  | .while_ => "while"
  | .for_ => "for"
  | .of => "of"
  | .in_ => "in"
  | .do_ => "do"
  | .break_ => "break"
  | .continue_ => "continue"
  | .throw => "throw"
  | .new => "new"
  | .delete => "delete"
  | .instanceOf => "instanceof"
  | .satisfies => "satisfies"
  | .this => "this"
  | .super => "super"
  | .true_ => "true"
  | .false_ => "false"
  | .null => "null"
  | .undefined => "undefined"
  | .import_ => "import"
  | .export_ => "export"
  | .default => "default"
  | .from_ => "from"
  | .as => "as"
  | .typeof => "typeof"
  | .void => "void"
  | .number => "number"
  | .string => "string"
  | .boolean => "boolean"
  | .any => "any"
  | .public_ => "public"
  | .private_ => "private"
  | .protected_ => "protected"
  | .static => "static"
  | .readonly => "readonly"
  | .abstract => "abstract"
  | .get => "get"
  | .set => "set"
  | .type => "type"
  | .interface => "interface"
  | .function => "function"

/-- Whether the word may still be used as the name of a variable, parameter or class. -/
def isContextual : Keyword → Bool
  | .of | .from_ | .as | .satisfies | .get | .set | .type | .number | .string | .boolean
  | .any | .constructor | .readonly | .abstract | .public_ | .private_ | .protected_
  | .static | .interface => true
  | _ => false

/-- The keyword spelled by `text`, if there is one. -/
def ofSpelling? (text : String) : Option Keyword := all.find? fun k => k.spelling == text

/-- A keyword is read back from its spelling. -/
theorem ofSpelling?_spelling (k : Keyword) : ofSpelling? k.spelling = some k := by
  cases k <;> decide

/-- A text spells at most one keyword, and that keyword is spelled so. -/
theorem ofSpelling?_eq_some_iff {text : String} {k : Keyword} :
    ofSpelling? text = some k ↔ k.spelling = text := by
  constructor
  · intro h
    simpa using List.find?_some h
  · intro h
    exact h ▸ ofSpelling?_spelling k

end Keyword

end ContractCompiler
