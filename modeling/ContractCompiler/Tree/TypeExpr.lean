import ContractCompiler.Tree.Ident

/-!
# Type annotations

Annotations are built from five keywords, dotted names with arguments, arrays and unions. The text of
an annotation writes a union without parentheses, whatever it stands in.
-/

namespace ContractCompiler

/-- The types that are keywords. -/
inductive TypeKeyword where
  | number | string | boolean | any | void
deriving DecidableEq, Repr

/-- The spelling of a type keyword. -/
def TypeKeyword.spelling : TypeKeyword → String
  | .number => "number"
  | .string => "string"
  | .boolean => "boolean"
  | .any => "any"
  | .void => "void"

/-- A type annotation. -/
inductive TypeExpr where
  | keyword (span : Span) (word : TypeKeyword)
  /-- A dotted name with its type arguments: `ns.Name<A, B>`. -/
  | named (span : Span) (path : List Ident) (args : List TypeExpr)
  | array (span : Span) (elem : TypeExpr)
  | union (span : Span) (types : List TypeExpr)
deriving Repr

namespace TypeExpr

/-- Where an annotation was read. -/
def span : TypeExpr → Span
  | .keyword s _ => s
  | .named s _ _ => s
  | .array s _ => s
  | .union s _ => s

/-- Whether the annotation is the keyword `void`. -/
def isVoid : TypeExpr → Bool
  | .keyword _ .void => true
  | _ => false

mutual

/-- The written form of an annotation. -/
def text : TypeExpr → String
  | .keyword _ word => word.spelling
  | .named _ path args =>
    let name := ".".intercalate (path.map Ident.name)
    if args.isEmpty then name else name ++ "<" ++ ", ".intercalate (texts args) ++ ">"
  | .array _ elem => elem.text ++ "[]"
  | .union _ types => " | ".intercalate (texts types)

/-- The written forms of several annotations. -/
def texts : List TypeExpr → List String
  | [] => []
  | t :: ts => t.text :: texts ts

end

theorem texts_eq_map (ts : List TypeExpr) : texts ts = ts.map text := by
  induction ts with
  | nil => rfl
  | cons t ts ih => rw [texts, ih, List.map_cons]

end TypeExpr

end ContractCompiler
