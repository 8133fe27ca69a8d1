import ContractCompiler.Binding.Bindings
import ContractCompiler.Contract.Page
import ContractCompiler.Contract.RenderError

/-!
# Writing expressions

The Solidity text of an expression. What has no counterpart becomes a visible placeholder and a
warning; an access to something the receiver does not offer is a failure, also inside a placeholder.
-/

namespace ContractCompiler

/-- Finding the text of a part of a contract, with the events noted on the way. -/
abbrev Rendering (α : Type) := EStateM RenderError Journal α

/-- The text of an operator between its operands, if Solidity has it. -/
def BinaryOp.solidity? : BinaryOp → Option String
  | .bitAnd => some " & "
  | .bitOr => some " | "
  | .bitXor => some " ^ "
  | .and => some " && "
  | .or => some " || "
  | .add => some " + "
  | .sub => some " - "
  | .subAssign => some " -= "
  | .lt => some " < "
  | .gt => some " > "
  | .le => some " <= "
  | .ge => some " >= "
  | .eq | .strictEq => some " == "
  | .notEq | .strictNotEq => some " != "
  | .assign => some " = "
  | _ => none

/-- What is written in place of a call's callee when it is an intrinsic. -/
def Intrinsic.solidity : Intrinsic → String
  | .assert => "assert"
  | .log => "emit "
  | .transferToSender => "msg.sender.transfer"

/-- A number below 256 as two hexadecimal digits. -/
def twoHexDigits (n : Nat) : List Char := [Nat.digitChar (n / 16), Nat.digitChar (n % 16)]

/-- A character between the quotes of a Solidity string. -/
def solidityChar (c : Char) : List Char :=
  if c = '\\' then ['\\', '\\']
  else if c = '\x22' then ['\\', '\x22']
  else if c = '\n' then ['\\', 'n']
  else if c = '\r' then ['\\', 'r']
  else if c = '\t' then ['\\', 't']
  else if c.toNat < 32 ∨ c.toNat = 127 then '\\' :: 'x' :: twoHexDigits c.toNat
  else [c]

/-- A string in double quotes, its quotes, backslashes and control characters escaped. -/
def solidityString (s : String) : String :=
  String.ofList ('\x22' :: (s.toList.flatMap solidityChar ++ ['\x22']))

namespace Expr

/-- The failure of a member access that the bindings do not know. -/
def unknownIntrinsic? (b : Bindings) : Expr → Option RenderError
  | .member span target name =>
    match b.get? span with
    | some (.unknown offered) =>
      let receiver := match target with
        | .ident receiver => receiver.name
        | _ => ""
      some (.unknownIntrinsic receiver offered name.span)
    | _ => none
  | _ => none

/-- The failure of the first unknown access inside an expression. -/
def firstUnknown? (b : Bindings) (e : Expr) : Option RenderError :=
  e.subexprs.findSome? (unknownIntrinsic? b)

/-- The intrinsic a callee is bound to. -/
def calledIntrinsic? (b : Bindings) : Expr → Option Intrinsic
  | .member span _ _ =>
    match b.get? span with
    | some (.known intrinsic) => some intrinsic
    | _ => none
  | _ => none

end Expr

namespace Rendering

/-- Notes an event. -/
def note (event : Event) : Rendering Unit := fun journal => .ok () (journal ++ [event])

/-- Fails if there is a failure. -/
def failIf (failure : Option RenderError) : Rendering Unit := fun journal =>
  match failure with
  | some e => .error e journal
  | none => .ok () journal

/-- The text of an operator, or a placeholder. -/
def operator (op : BinaryOp) : Rendering String :=
  match op.solidity? with
  | some text => pure text
  | none => do
    note (.unsupportedOperator op.spelling)
    return " /* <token op=" ++ op.spelling ++ " /> */ "

/-- The placeholder of an expression. -/
def placeholder (e : Expr) : Rendering String := do
  note (.unsupportedExpr e.kindName e.span)
  return "/* <expression kind=" ++ e.kindName ++ " /> */"

/-- The text of a literal. -/
def literal (span : Span) (value : Literal) : Rendering String :=
  match value with
  | .number text => pure text
  | .string value => pure (solidityString value)
  | .bool value => pure (if value then "true" else "false")
  | .null | .undefined | .template _ => placeholder (.literal span value)

mutual

/-- The text of an expression. -/
def expr (b : Bindings) (e : Expr) : Rendering String :=
  match e with
  | .literal span value => literal span value
  | .ident name => pure name.name
  | .this _ => pure "this"
  | .super _ => pure "super"
  | .member _ target member => do
    failIf (e.unknownIntrinsic? b)
    let text ← expr b target
    return text ++ "." ++ member.bare
  | .index _ target key => do
    let text ← expr b target
    let keyText ← expr b key
    return text ++ "[" ++ keyText ++ "]"
  | .binary _ op left right => do
    let leftText ← expr b left
    let opText ← operator op
    let rightText ← expr b right
    return leftText ++ opText ++ rightText
  | .call _ callee args => do
    failIf (callee.unknownIntrinsic? b)
    let text ←
      match callee.calledIntrinsic? b with
      | some intrinsic => pure intrinsic.solidity
      | none => expr b callee
    let argTexts ← exprs b args
    return text ++ "(" ++ ", ".intercalate argTexts ++ ")"
  | .paren _ inner => do
    let text ← expr b inner
    return "(" ++ text ++ ")"
  | .unary .. | .update .. | .conditional .. | .array .. | .object .. | .new .. | .asType ..
  | .satisfiesType .. | .nonNull .. | .optionalChain .. => do
    failIf (e.firstUnknown? b)
    placeholder e

/-- The texts of several expressions. -/
def exprs (b : Bindings) : List Expr → Rendering (List String)
  | [] => pure []
  | e :: es => do
    let text ← expr b e
    let texts ← exprs b es
    return text :: texts

end

/-- Finds a text while writing a page; what is noted goes to the page. -/
def onPage {α : Type} (r : Rendering α) : Writing RenderError α := fun p =>
  match r p.notes with
  | .ok a notes => .ok a { p with notes := notes }
  | .error e notes => .error e { p with notes := notes }

end Rendering

end ContractCompiler
