import ContractCompiler.Span

/-!
# Identifiers

A name with the span it was read from. A leading `#` marks a private name; it belongs to the name and
is taken off only where a contract is written.
-/

namespace ContractCompiler

/-- A name and its place in the source. -/
structure Ident where
  name : String
  span : Span
deriving DecidableEq, Repr, Inhabited

/-- The sigil that marks a declared name as private. -/
def privateMarker : Char := '#'

/-- Whether a name carries the private marker. -/
def isPrivateName (name : String) : Bool := name.toList.head? == some privateMarker

/-- A name without its private marker; only one is taken off. -/
def bareName (name : String) : String :=
  match name.toList with
  | c :: cs => if c = privateMarker then String.ofList cs else name
  | [] => name

namespace Ident

/-- Whether the name carries the private marker. -/
def isPrivate (i : Ident) : Bool := isPrivateName i.name

/-- The name without its private marker. -/
def bare (i : Ident) : String := bareName i.name

end Ident

end ContractCompiler
