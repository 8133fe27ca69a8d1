import ContractCompiler.Span
import ContractCompiler.Text.Quoted

/-!
# Intrinsics

The privileged operations a contract reaches through the receiver, and what a member access on the
receiver resolves to.
-/

namespace ContractCompiler

/-- The privileged operations. -/
inductive Intrinsic where
  /-- A check at run time. -/
  | assert
  /-- An event. -/
  | log
  /-- A payment to the caller. -/
  | transferToSender
deriving DecidableEq, Repr

namespace Intrinsic

/-- Every operation, in the order in which messages list them. -/
def all : List Intrinsic := [.assert, .log, .transferToSender]

/-- The member name under which the receiver offers an operation. -/
def memberName : Intrinsic → String
  | .assert => "assert"
  | .log => "log"
  | .transferToSender => "transferToSenderWei"

/-- The operation offered under a member name. -/
def ofMember? (name : String) : Option Intrinsic := all.find? fun i => i.memberName == name

/-- The name of an operation in messages. -/
def label : Intrinsic → String
  | .assert => "Assert"
  | .log => "Log"
  | .transferToSender => "TransferToSender"

theorem ofMember?_eq_some_iff {name : String} {i : Intrinsic} :
    ofMember? name = some i ↔ i.memberName = name := by
  constructor
  · intro h
    simpa using List.find?_some h
  · intro h
    subst h
    cases i <;> decide

end Intrinsic

/-- What a member access on the receiver resolves to. -/
inductive Target where
  | known (intrinsic : Intrinsic)
  /-- The receiver offers nothing under this name. -/
  | unknown (member : String)
deriving DecidableEq, Repr

namespace Target

/-- What the member `name` of the receiver resolves to. -/
def ofMember (name : String) : Target :=
  match Intrinsic.ofMember? name with
  | some i => .known i
  | none => .unknown name

/-- The text of a target in messages. -/
def text : Target → String
  | .known i => "Known(" ++ i.label ++ ")"
  | .unknown name => "Unknown(" ++ Text.quoted name ++ ")"

end Target

end ContractCompiler
