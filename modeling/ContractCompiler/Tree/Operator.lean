/-!
# Operators

The operators of the source language with their spellings. Assignments are binary operators too.
-/

namespace ContractCompiler

/-- Binary operators, assignments included. -/
inductive BinaryOp where
  | bitAnd | bitOr | bitXor | and | or | coalesce
  | add | sub | mul | div | rem | exp
  | shl | shr | ushr
  | lt | gt | le | ge | in_ | instanceOf
  | eq | notEq | strictEq | strictNotEq
  | assign | addAssign | subAssign | mulAssign | divAssign | remAssign | expAssign
  | shlAssign | shrAssign | ushrAssign
  | bitAndAssign | bitOrAssign | bitXorAssign
  | andAssign | orAssign | coalesceAssign
deriving DecidableEq, Repr

namespace BinaryOp

/-- The spelling of a binary operator. -/
def spelling : BinaryOp → String
  | .bitAnd => "&"
  | .bitOr => "|"
  | .bitXor => "^"
  | .and => "&&"
  | .or => "||"
  | .coalesce => "??"
  | .add => "+"
  | .sub => "-"
  | .mul => "*"
  | .div => "/"
  | .rem => "%"
  | .exp => "**"
  | .shl => "<<"
  | .shr => ">>"
  | .ushr => ">>>"
  | .lt => "<"
  | .gt => ">"
  | .le => "<="
  | .ge => ">="
  | .in_ => "in"
  | .instanceOf => "instanceof"
  | .eq => "=="
  | .notEq => "!="
  | .strictEq => "==="
  | .strictNotEq => "!=="
  | .assign => "="
  | .addAssign => "+="
  | .subAssign => "-="
  | .mulAssign => "*="
  | .divAssign => "/="
  | .remAssign => "%="
  | .expAssign => "**="
  | .shlAssign => "<<="
  | .shrAssign => ">>="
  | .ushrAssign => ">>>="
  | .bitAndAssign => "&="
  | .bitOrAssign => "|="
  | .bitXorAssign => "^="
  | .andAssign => "&&="
  | .orAssign => "||="
  | .coalesceAssign => "??="

/-- Whether the operator stores into its left operand. -/
def isAssignment : BinaryOp → Bool
  | .assign | .addAssign | .subAssign | .mulAssign | .divAssign | .remAssign | .expAssign
  | .shlAssign | .shrAssign | .ushrAssign | .bitAndAssign | .bitOrAssign | .bitXorAssign
  | .andAssign | .orAssign | .coalesceAssign => true
  | _ => false

end BinaryOp

/-- Operators written before one operand. -/
inductive UnaryOp where
  | not | neg | plus | bitNot | typeof | void | delete
deriving DecidableEq, Repr

/-- The operators `++` and `--`. -/
inductive UpdateOp where
  | increment | decrement
deriving DecidableEq, Repr

end ContractCompiler
