import ContractCompiler.Compile

/-!
# Diagnostics

A failure as it is reported: a message, the part of the source it is about with a remark, and notes.
-/

namespace ContractCompiler

/-- A part of the source with a remark. -/
structure Label where
  span : Span
  message : String
deriving DecidableEq, Repr

/-- A report of an error. -/
structure Diagnostic where
  message : String
  label : Option Label
  notes : List String
deriving DecidableEq, Repr

/-- The report of a parse error. -/
def ParseError.diagnostic (e : ParseError) : Diagnostic :=
  ⟨e.message, some ⟨e.span, "error occurs here"⟩, []⟩

/-- The remark on the place of a failure to write a class. -/
def RenderError.remark : RenderError → String
  | .missingType .. => "declared without a type"
  | .missingInit .. => "declared without an initializer"
  | .unknownType .. => "no Solidity type for this annotation"
  | .unknownIntrinsic .. => "not provided by the intrinsic receiver"

/-- What there is instead of an unknown type or operation. -/
def RenderError.notes : RenderError → List String
  | .unknownType .. =>
    ["supported types: number, string, UNSIGNED_INT, ADDRESS, Map<K, V>, or a struct name"]
  | .unknownIntrinsic .. =>
    ["available intrinsics: " ++ ", ".intercalate (Intrinsic.all.map Intrinsic.memberName)]
  | .missingType .. | .missingInit .. => []

/-- The report of a failure to compile. -/
def CompileError.diagnostic (e : CompileError) : Diagnostic :=
  match e with
  | .render _ error => ⟨e.message, some ⟨error.span, error.remark⟩, error.notes⟩
  | .emit .. => ⟨e.message, none, []⟩

/-- The reports of a failure: one for each parse error, or one for a failure to compile. -/
def Failure.diagnostics : Failure → List Diagnostic
  | .load (.parse _ _ errors) => errors.map ParseError.diagnostic
  | .load (.read ..) => []
  | .compile e => [e.diagnostic]

end ContractCompiler
