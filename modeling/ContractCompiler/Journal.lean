import ContractCompiler.Binding.Intrinsic

/-!
# The journal

What the compiler notes while it works. An event says what happened; its level, the part of the
compiler it comes from and its wording are functions of the event, so that a journal is a plain list of
events in the order in which they happened.
-/

namespace ContractCompiler

/-- How much an event matters. -/
inductive Level where
  | debug | info | warn
deriving DecidableEq, Repr

/-- The written form of a level. -/
def Level.text : Level → String
  | .debug => "DEBUG"
  | .info => "INFO"
  | .warn => "WARN"

/-- Something the compiler notes. -/
inductive Event where
  | configured (configuration : String)
  | parsing (path : String)
  | lexed (tokens : Nat)
  | parsedClass (name : String) (members : Nat)
  | parsed (items errors : Nat)
  | discovered (name : String)
  | redeclared (name : String)
  | classList (names : List String)
  | shadowed (name : String)
  | bound (receiver member : String) (span : Span) (target : Target)
  | boundTotal (count : Nat)
  | rendering (name : String)
  | unsupportedMember (kind : String) (span : Span)
  | unsupportedStmt (kind : String) (span : Span)
  | unsupportedExpr (kind : String) (span : Span)
  | unsupportedOperator (spelling : String)
  | writing (path : String)
  | emitted (name : String)
deriving DecidableEq, Repr

/-- The events of a run, in order. -/
abbrev Journal := List Event

namespace Event

/-- The level of an event: placeholders are warnings, a finished contract is information, all else is
detail. -/
def level : Event → Level
  | .unsupportedMember .. | .unsupportedStmt .. | .unsupportedExpr .. | .unsupportedOperator .. => .warn
  | .emitted _ => .info
  | _ => .debug

/-- The part of the compiler an event comes from. -/
def origin : Event → String
  | .configured _ => "tsolc"
  | .parsing _ => "tsol"
  | .writing _ => "tsol::sink"
  | .lexed _ | .parsedClass .. | .parsed .. => "tsol_parser"
  | .discovered _ | .redeclared _ => "tsol_semantic"
  | .shadowed _ | .bound .. | .boundTotal _ => "tsol_semantic::intrinsics"
  | .classList _ | .emitted _ => "tsol_codegen_sol::driver"
  | .rendering _ | .unsupportedMember .. => "tsol_codegen_sol::contract"
  | .unsupportedStmt .. => "tsol_codegen_sol::stmt"
  | .unsupportedExpr .. | .unsupportedOperator _ => "tsol_codegen_sol::expr"

/-- The wording of an event. -/
def message : Event → String
  | .configured configuration => "configuration: " ++ configuration
  | .parsing path => "parsing " ++ path
  | .lexed tokens => "lexed " ++ toString tokens ++ " tokens"
  | .parsedClass name members =>
    "parsed class `" ++ name ++ "` with " ++ toString members ++ " member(s)"
  | .parsed items errors =>
    "parsed " ++ toString items ++ " top-level item(s), " ++ toString errors ++ " error(s)"
  | .discovered name => "discovered class `" ++ name ++ "`"
  | .redeclared name =>
    "class `" ++ name ++ "` declared more than once; using the later declaration"
  | .classList names =>
    "discovered " ++ toString names.length ++ " class(es): " ++ ", ".intercalate names
  | .shadowed name => "class `" ++ name ++ "` shadows the intrinsic receiver"
  | .bound receiver member span target =>
    "bound `" ++ receiver ++ "." ++ member ++ "` at " ++ span.text ++ " to " ++ target.text
  | .boundTotal count => "bound " ++ toString count ++ " intrinsic reference(s)"
  | .rendering name => "rendering contract `" ++ name ++ "`"
  | .unsupportedMember kind span =>
    "unsupported class member `" ++ kind ++ "` at " ++ span.text ++ " rendered as a placeholder"
  | .unsupportedStmt kind span =>
    "unsupported statement `" ++ kind ++ "` at " ++ span.text ++ " rendered as a placeholder"
  | .unsupportedExpr kind span =>
    "unsupported expression `" ++ kind ++ "` at " ++ span.text ++ " rendered as a placeholder"
  | .unsupportedOperator spelling =>
    "unsupported operator `" ++ spelling ++ "` rendered as a placeholder"
  | .writing path => "writing " ++ path
  | .emitted name => "emitted contract `" ++ name ++ "`"

end Event

end ContractCompiler
