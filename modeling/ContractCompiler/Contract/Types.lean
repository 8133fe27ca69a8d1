import ContractCompiler.Contract.RenderError
import ContractCompiler.Tree.TypeExpr

/-!
# Solidity types

The Solidity type an annotation stands for. `number` is a signed integer of 256 bits; `UNSIGNED_INT`,
`ADDRESS` and `Map<K, V>` have types of their own; any other single name is taken for a struct or a
contract and kept, its arguments dropped.
-/

namespace ContractCompiler.TypeExpr

/-- The failure to find a type. -/
def unknown (t : TypeExpr) : RenderError := .unknownType t.text t.span

/-- The Solidity type an annotation stands for. -/
def solidity (t : TypeExpr) : Except RenderError String :=
  match t with
  | .keyword _ .number => .ok "int256"
  | .keyword _ .string => .ok "string"
  | .named _ [name] args =>
    match name.name, args with
    | "UNSIGNED_INT", [] => .ok "uint256"
    | "ADDRESS", [] => .ok "address"
    | "Map", [key, value] => do
      let k ← solidity key
      let v ← solidity value
      return "mapping(" ++ k ++ " => " ++ v ++ ")"
    | "Map", _ => .error t.unknown
    | other, _ => .ok other
  | _ => .error t.unknown

end ContractCompiler.TypeExpr
