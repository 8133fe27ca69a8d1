import ContractCompiler.Proofs.Contract.Characters
import ContractCompiler.Proofs.Contract.FirstUnknown

/-!
# Unsupported constructs

What Solidity does not have is written as a placeholder, and a warning is noted for it. The constructs this concerns can be
told from the class: `unsupported` lists them in the order of the text, the outermost ones only, since nothing inside a
placeholder is written. The bindings matter for it only where an intrinsic is called, and in a parsed file not even there.
-/

namespace ContractCompiler

/-- A construct that Solidity does not have. -/
inductive Unsupported where
  | member (m : Member)
  | stmt (s : Stmt)
  | expr (e : Expr)
  | operator (op : BinaryOp)

namespace Unsupported

/-- The warning about a construct. -/
def event : Unsupported → Event
  | .member m => .unsupportedMember m.shape.kindName m.span
  | .stmt s => .unsupportedStmt s.kindName s.span
  | .expr e => .unsupportedExpr e.kindName e.span
  | .operator op => .unsupportedOperator op.spelling

/-- What is written in place of a construct. -/
def placeholder : Unsupported → String
  | .member m => "/* <member kind=" ++ m.shape.kindName ++ " /> */"
  | .stmt s => "/* <statement kind=" ++ s.kindName ++ " /> */"
  | .expr e => "/* <expression kind=" ++ e.kindName ++ " /> */"
  | .operator op => " /* <token op=" ++ op.spelling ++ " /> */ "

end Unsupported

/-- Whether an event is a warning. -/
def Event.isWarning (e : Event) : Bool := e.level = .warn

/-- The event of an unsupported construct is a warning. -/
theorem Unsupported.isWarning_event (u : Unsupported) : u.event.isWarning = true := by
  cases u <;> rfl

/-! ## What is unsupported -/

/-- The operator, if Solidity does not have it. -/
def BinaryOp.unsupported (op : BinaryOp) : List Unsupported := if op.solidity?.isNone then [.operator op] else []

namespace Expr

mutual

/-- The outermost unsupported constructs in an expression, in the order of its text: an operator stands between its operands,
and what is called as an intrinsic is not written. -/
def unsupported (b : Bindings) (e : Expr) : List Unsupported :=
  match e with
  | .literal _ (.number _) | .literal _ (.string _) | .literal _ (.bool _) | .ident _ | .this _ | .super _ => []
  | .member _ target _ => target.unsupported b
  | .index _ target key => target.unsupported b ++ key.unsupported b
  | .binary _ op left right => left.unsupported b ++ (op.unsupported ++ right.unsupported b)
  | .call _ callee args =>
    (if (callee.calledIntrinsic? b).isSome then [] else callee.unsupported b) ++ unsupportedOf b args
  | .paren _ inner => inner.unsupported b
  | .literal _ .null | .literal _ .undefined | .literal _ (.template _) | .unary .. | .update .. | .conditional ..
  | .array .. | .object .. | .new .. | .asType .. | .satisfiesType .. | .nonNull .. | .optionalChain .. => [.expr e]

/-- The outermost unsupported constructs in several expressions. -/
def unsupportedOf (b : Bindings) : List Expr → List Unsupported
  | [] => []
  | e :: es => e.unsupported b ++ unsupportedOf b es

end

/-- The unsupported constructs in several expressions are those in each of them. -/
theorem unsupportedOf_eq_flatMap (b : Bindings) (es : List Expr) : unsupportedOf b es = es.flatMap (unsupported b) := by
  induction es with
  | nil => rfl
  | cons e es ih => rw [unsupportedOf, ih, List.flatMap_cons]

end Expr

namespace Stmt

mutual

/-- The outermost unsupported constructs in a statement, in the order of its text. A block is one, unless it is a branch. -/
def unsupported (b : Bindings) (place : Writing.Place) (s : Stmt) : List Unsupported :=
  match s with
  | .return_ _ value => value.toList.flatMap (Expr.unsupported b)
  | .expr _ e => e.unsupported b
  | .var _ _ decls => (decls.filterMap Declarator.init).flatMap (Expr.unsupported b)
  | .if_ _ cond thenBranch elseBranch =>
    cond.unsupported b ++ (thenBranch.unsupported b .branch ++ unsupportedElse b elseBranch)
  | .while_ _ cond body => cond.unsupported b ++ body.unsupported b .branch
  | .block _ ss =>
    match place with
    | .branch => unsupportedOf b ss
    | .lastLine => [.stmt s]
  | .doWhile .. | .for_ .. | .forEach .. | .break_ _ | .continue_ _ | .throw .. | .empty _ => [.stmt s]

/-- The outermost unsupported constructs in an `else`. -/
def unsupportedElse (b : Bindings) : Option Stmt → List Unsupported
  | none => []
  | some s => s.unsupported b .branch

/-- The outermost unsupported constructs in several statements. -/
def unsupportedOf (b : Bindings) : List Stmt → List Unsupported
  | [] => []
  | s :: ss => s.unsupported b .lastLine ++ unsupportedOf b ss

end

end Stmt

/-- The outermost unsupported constructs in a member. -/
def Member.unsupported (b : Bindings) (m : Member) : List Unsupported :=
  match m.shape with
  | .property _ _ init => init.toList.flatMap (Expr.unsupported b)
  | .constructor _ body | .method _ _ _ body => Stmt.unsupportedOf b (body.toList.flatMap Block.stmts)
  | .accessor .. | .indexSignature .. => [.member m]

/-- The outermost unsupported constructs in a class. -/
def ClassDecl.unsupported (b : Bindings) (c : ClassDecl) : List Unsupported := c.members.flatMap (Member.unsupported b)

/-! ## The part of the bindings -/

namespace Expr

variable {b : Bindings}

/-- Without bindings no intrinsic is called. -/
theorem calledIntrinsic?_empty (e : Expr) : e.calledIntrinsic? .empty = none := by
  cases e <;> rfl

/-- There is nothing unsupported in what is called as an intrinsic. -/
theorem OnNames.unsupported_of_called {callee : Expr} (h : callee.OnNames b) {intrinsic : Intrinsic}
    (hcalled : callee.calledIntrinsic? b = some intrinsic) : callee.unsupported .empty = [] := by
  cases callee with
  | member span target name =>
    have hbound : b.get? span ≠ none := by
      intro hnone
      simp [calledIntrinsic?, hnone] at hcalled
    obtain ⟨object, rfl⟩ := h span target name (mem_subexprs_self _) hbound
    rw [unsupported, unsupported]
  | _ => cases hcalled

/-- Where bound accesses are on names, nothing unsupported is left out with the callee of an intrinsic. -/
theorem OnNames.unsupported_eq {e : Expr} (h : e.OnNames b) : e.unsupported b = e.unsupported .empty := by
  have hparts : ∀ c ∈ e.children, c.unsupported b = c.unsupported .empty := fun c hc => (h.child hc).unsupported_eq
  cases e with
  | member span target name =>
    rw [unsupported, unsupported]
    exact hparts target List.mem_cons_self
  | index span target key =>
    rw [unsupported, unsupported, hparts target List.mem_cons_self,
      hparts key (List.mem_cons_of_mem _ List.mem_cons_self)]
  | binary span op left right =>
    rw [unsupported, unsupported, hparts left List.mem_cons_self,
      hparts right (List.mem_cons_of_mem _ List.mem_cons_self)]
  | paren span inner =>
    rw [unsupported, unsupported]
    exact hparts inner List.mem_cons_self
  | call span callee args =>
    have hargs : unsupportedOf b args = unsupportedOf .empty args := by
      rw [unsupportedOf_eq_flatMap, unsupportedOf_eq_flatMap]
      exact List.flatMap_congr fun a ha => hparts a (List.mem_cons_of_mem _ ha)
    have hcallee : (if (callee.calledIntrinsic? b).isSome then [] else callee.unsupported b) =
        callee.unsupported .empty := by
      cases hcalled : callee.calledIntrinsic? b with
      | none => exact hparts callee List.mem_cons_self
      | some intrinsic => exact ((h.child List.mem_cons_self).unsupported_of_called hcalled).symm
    rw [unsupported, unsupported, hargs, hcallee, calledIntrinsic?_empty]
    rfl
  | literal span value => cases value <;> rw [unsupported, unsupported]
  | _ => rw [unsupported, unsupported]
termination_by sizeOf e
decreasing_by exact sizeOf_lt_of_mem_children hc

end Expr

namespace Stmt

variable {b : Bindings}

/-- In expressions whose bound accesses are on names, the bindings make no difference to what is unsupported. -/
theorem flatMap_unsupported_eq {es : List Expr} (h : ∀ e ∈ es, e.OnNames b) :
    es.flatMap (Expr.unsupported b) = es.flatMap (Expr.unsupported .empty) :=
  List.flatMap_congr fun e he => (h e he).unsupported_eq

mutual

theorem unsupported_eq (place : Writing.Place) (s : Stmt) (h : ∀ e ∈ s.allExprs, e.OnNames b) :
    s.unsupported b place = s.unsupported .empty place := by
  cases s with
  | return_ span value =>
    rw [unsupported, unsupported]
    exact flatMap_unsupported_eq h
  | expr span e =>
    rw [unsupported, unsupported]
    exact (h e List.mem_cons_self).unsupported_eq
  | var span kind decls =>
    rw [unsupported, unsupported]
    exact flatMap_unsupported_eq h
  | if_ span cond thenBranch elseBranch =>
    simp only [allExprs, List.forall_mem_cons, List.forall_mem_append] at h
    rw [unsupported, unsupported, h.1.unsupported_eq, unsupported_eq .branch thenBranch h.2.1,
      unsupportedElse_eq elseBranch h.2.2]
  | while_ span cond body =>
    simp only [allExprs, List.forall_mem_cons] at h
    rw [unsupported, unsupported, h.1.unsupported_eq, unsupported_eq .branch body h.2]
  | block span ss =>
    cases place with
    | branch =>
      rw [unsupported, unsupported]
      exact unsupportedOf_eq ss h
    | lastLine => rw [unsupported, unsupported]
  | doWhile | for_ | forEach | break_ | continue_ | throw | empty => rw [unsupported, unsupported]

theorem unsupportedElse_eq (branch : Option Stmt) (h : ∀ e ∈ allExprsOption branch, e.OnNames b) :
    unsupportedElse b branch = unsupportedElse .empty branch := by
  cases branch with
  | none => rfl
  | some s => exact unsupported_eq .branch s h

theorem unsupportedOf_eq (ss : List Stmt) (h : ∀ e ∈ allExprsList ss, e.OnNames b) :
    unsupportedOf b ss = unsupportedOf .empty ss := by
  cases ss with
  | nil => rfl
  | cons s ss =>
    simp only [allExprsList, List.forall_mem_append] at h
    rw [unsupportedOf, unsupportedOf, unsupported_eq .lastLine s h.1, unsupportedOf_eq ss h.2]

end

end Stmt

theorem Member.unsupported_eq {b : Bindings} {m : Member} (h : ∀ e ∈ m.shape.checked, e.OnNames b) :
    m.unsupported b = m.unsupported .empty := by
  unfold Member.unsupported
  cases hshape : m.shape with
  | property name type init =>
    rw [hshape] at h
    exact Stmt.flatMap_unsupported_eq h
  | constructor params body | method _ params _ body =>
    rw [hshape] at h
    refine Stmt.unsupportedOf_eq _ ?_
    rw [Stmt.allExprsList_eq_flatMap, List.flatMap_assoc]
    exact h
  | accessor | indexSignature => rfl

/-- In a parsed file, what is unsupported does not depend on the bindings. -/
theorem ClassDecl.unsupported_eq_of_parse {source : String} (receiver : String) {c : ClassDecl}
    (hc : c ∈ (parse source).file.classes) :
    c.unsupported ((parse source).file.bindings receiver) = c.unsupported .empty := by
  refine List.flatMap_congr fun m hm => Member.unsupported_eq fun e he => onNames_of_mem_subexprs receiver ?_
  have hmem : e ∈ c.exprs := by
    refine List.mem_append_right _ (List.mem_flatMap.mpr ⟨m, hm, ?_⟩)
    exact List.mem_append_right _ (MemberShape.mem_exprs_of_mem_checked he)
  exact List.mem_flatMap.mpr ⟨e, mem_exprs_of_mem_classes hc hmem, e.mem_subexprs_self⟩

end ContractCompiler
