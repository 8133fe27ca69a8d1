import ContractCompiler.Span

/-!
# Failures of rendering

Why a class cannot be written as a contract.
-/

namespace ContractCompiler

/-- Why a class cannot be written. -/
inductive RenderError where
  /-- A property or a parameter has no type. -/
  | missingType (name : String) (span : Span)
  /-- A local variable has no initializer. -/
  | missingInit (name : String) (span : Span)
  /-- A type has no counterpart. -/
  | unknownType (type : String) (span : Span)
  /-- The receiver offers no such operation. -/
  | unknownIntrinsic (receiver member : String) (span : Span)
deriving DecidableEq, Repr

namespace RenderError

/-- The wording of a failure. -/
def message : RenderError → String
  | .missingType name _ => "`" ++ name ++ "` must have a type annotation"
  | .missingInit name _ => "variable `" ++ name ++ "` must be initialized"
  | .unknownType type _ => "unknown type `" ++ type ++ "`"
  | .unknownIntrinsic receiver member _ => "unknown intrinsic `" ++ receiver ++ "." ++ member ++ "`"

/-- Where the failure lies. -/
def span : RenderError → Span
  | .missingType _ s | .missingInit _ s | .unknownType _ s | .unknownIntrinsic _ _ s => s

end RenderError

end ContractCompiler
