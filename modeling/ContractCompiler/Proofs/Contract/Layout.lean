import ContractCompiler.Proofs.Contract.Failure
import ContractCompiler.Proofs.Reading.Declarators
import ContractCompiler.Proofs.Tree.Equality

/-!
# The layout of a contract

A contract is a list of rows, each a text at a depth, that can be told from the class and the bindings: a property is one
row, a callable its first line, its body one level deeper and a closing brace, and likewise for loops and branches, but
the statements of an `else` stay at the depth of their `if`. Writing the class on a page gives these rows, each behind its
indentation, or fails if there are none; the text written per level plays no other part.
-/

namespace ContractCompiler

/-- A line of a contract without its indentation. -/
structure Row where
  depth : Nat
  text : String
deriving DecidableEq, Repr

namespace Row

/-- The row behind its indentation. -/
def line (unit : String) (r : Row) : String := String.join (List.replicate r.depth unit) ++ r.text

/-- Rows between a first line and a closing brace. -/
def braced (depth : Nat) (head : String) (inner : List Row) : List Row := ⟨depth, head⟩ :: inner ++ [⟨depth, "\x7d"⟩]

end Row

/-! ## The rows of a class -/

/-- What a run has ended with, without the state. -/
def outcome {ε σ α : Type} : EStateM.Result ε σ α → Except ε α
  | .ok a _ => .ok a
  | .error err _ => .error err

/-- The text of an expression. -/
def Expr.solidity (b : Bindings) (e : Expr) : Except RenderError String := outcome (Rendering.expr b e [])

/-- The text of a declared variable. -/
def Declarator.solidity (b : Bindings) (d : Declarator) : Except RenderError String :=
  match d.init with
  | none => .error (.missingInit d.name.name d.span)
  | some init => do
    let type ← Writing.localType d.type
    let value ← init.solidity b
    return type ++ " " ++ d.name.name ++ " = " ++ value ++ ";"

namespace Stmt

/-- The text of a placeholder, if there is no unknown access below it. -/
def placeholder (b : Bindings) (s : Stmt) : Except RenderError String :=
  match Writing.firstUnknown? b s with
  | some err => .error err
  | none => .ok ("/* <statement kind=" ++ s.kindName ++ " /> */")

mutual

/-- The rows of a statement. A block that is a branch has the rows of its statements. -/
def rows (b : Bindings) (place : Writing.Place) (depth : Nat) (s : Stmt) : Except RenderError (List Row) :=
  match s with
  | .return_ _ none => return [⟨depth, "return;"⟩]
  | .return_ _ (some e) => do
    let value ← e.solidity b
    return [⟨depth, "return " ++ value ++ ";"⟩]
  | .expr _ e => do
    let text ← e.solidity b
    return [⟨depth, text ++ ";"⟩]
  | .var _ _ decls => do
    let texts ← decls.mapM (Declarator.solidity b)
    return texts.map (Row.mk depth)
  | .if_ _ cond thenBranch elseBranch => do
    let test ← cond.solidity b
    let inner ← thenBranch.rows b .branch (depth + 1)
    let others ← elseRows b depth elseBranch
    return Row.braced depth ("if (" ++ test ++ ") \x7b") inner ++ others
  | .while_ _ cond body => do
    let test ← cond.solidity b
    let inner ← body.rows b .branch (depth + 1)
    return Row.braced depth ("while (" ++ test ++ ") \x7b") inner
  | .block _ ss =>
    match place with
    | .branch => rowsOf b depth ss
    | .lastLine => do
      let text ← s.placeholder b
      return [⟨depth, text⟩]
  | .doWhile .. | .for_ .. | .forEach .. | .break_ _ | .continue_ _ | .throw .. | .empty _ => do
    let text ← s.placeholder b
    return [⟨depth, text⟩]

/-- The rows of an `else`: its statements are at the depth of its braces. -/
def elseRows (b : Bindings) (depth : Nat) : Option Stmt → Except RenderError (List Row)
  | none => return []
  | some s => do
    let inner ← s.rows b .branch depth
    return Row.braced depth "else \x7b" inner

/-- The rows of statements, one after the other. -/
def rowsOf (b : Bindings) (depth : Nat) : List Stmt → Except RenderError (List Row)
  | [] => return []
  | s :: ss => do
    let own ← s.rows b .lastLine depth
    let others ← rowsOf b depth ss
    return own ++ others

end

end Stmt

/-- The first line of a callable: it is private exactly if its name starts with the marker, and its parameters stand in the
order in which they are declared. -/
def callableHead (name : String) (params : List Param) (returns : Option TypeExpr) : Except RenderError String := do
  let texts ← params.mapM Param.solidity
  let visibility := if ['#'] <+: name.toList then "private" else "public"
  let list := "(" ++ ", ".intercalate texts ++ ") " ++ visibility
  if bareName name = "constructor" then return "constructor" ++ list ++ " \x7b"
  else
    let clause ← returnsClause returns
    return "function " ++ bareName name ++ list ++ clause ++ " \x7b"

/-- A private name starts with the marker. -/
theorem isPrivateName_iff (name : String) : isPrivateName name = true ↔ ['#'] <+: name.toList := by
  unfold isPrivateName privateMarker
  cases name.toList with
  | nil => simp
  | cons c cs => simpa using eq_comm

/-- The signature that is written is the first line of a callable. -/
theorem signature_eq_callableHead (name : String) (params : List Param) (returns : Option TypeExpr) :
    signature name params returns = callableHead name params returns := by
  unfold signature callableHead
  simp only [isPrivateName_iff, constructorName]

/-- The rows of a callable. -/
def callableRows (b : Bindings) (name : String) (params : List Param) (returns : Option TypeExpr) (body : Option Block) :
    Except RenderError (List Row) := do
  let head ← callableHead name params returns
  let inner ← Stmt.rowsOf b 2 (body.toList.flatMap Block.stmts)
  return Row.braced 1 head inner

/-- The text of an initializer, with its sign, if there is one. -/
def initializer (b : Bindings) : Option Expr → Except RenderError String
  | none => return ""
  | some e => do
    let value ← e.solidity b
    return " = " ++ value

/-- The rows of a member. -/
def Member.rows (b : Bindings) (m : Member) : Except RenderError (List Row) :=
  match m.shape with
  | .property name none _ => .error (.missingType name.name m.span)
  | .property name (some type) init => do
    let typeText ← type.solidity
    let value ← initializer b init
    return [⟨1, typeText ++ " " ++ name.bare ++ value ++ ";"⟩]
  | .constructor params body => callableRows b "constructor" params none body
  | .method name params returns body => do
    let own ← callableRows b name.name params returns body
    return own ++ [⟨1, ""⟩]
  | .accessor .. | .indexSignature .. => return [⟨1, "/* <member kind=" ++ m.shape.kindName ++ " /> */"⟩]

/-- The rows of a class. -/
def ClassDecl.rows (b : Bindings) (c : ClassDecl) : Except RenderError (List Row) := do
  let inner ← c.members.mapM (Member.rows b)
  return Row.braced 0 ("contract " ++ c.name.name ++ " \x7b") inner.flatten

/-! ## Texts do not depend on what was noted -/

/-- Every run ends with the same outcome. -/
def Steady {ε σ α : Type} (r : EStateM ε σ α) : Prop := ∀ s s', outcome (r s) = outcome (r s')

namespace Steady

variable {ε σ α β : Type}

/-- A value is the same in every run. -/
theorem pure (a : α) : Steady (pure a : EStateM ε σ α) := fun _ _ => rfl

/-- Two steps that are the same in every run are so together. -/
theorem bind {r : EStateM ε σ α} {k : α → EStateM ε σ β} (hr : Steady r) (hk : ∀ a, Steady (k a)) :
    Steady (r >>= k) := by
  intro s s'
  have hrun := hr s s'
  show outcome (EStateM.bind r k s) = outcome (EStateM.bind r k s')
  unfold EStateM.bind
  cases hs : r s <;> cases hs' : r s' <;> rw [hs, hs'] at hrun <;> cases hrun
  · exact hk _ _ _
  · rfl

end Steady

namespace Rendering

variable {b : Bindings}

/-- A check has the same outcome in every run. -/
theorem steady_failIf (f : Option RenderError) : Steady (failIf f) := by
  intro s s'
  cases f <;> rfl

theorem steady_placeholder (e : Expr) : Steady (placeholder e) := fun _ _ => rfl

theorem steady_operator (op : BinaryOp) : Steady (operator op) := by
  intro s s'
  unfold operator
  cases op.solidity? <;> rfl

theorem steady_literal (span : Span) (value : Literal) : Steady (literal span value) := by
  cases value with
  | null | undefined | template => exact steady_placeholder _
  | _ => exact .pure _

/-- So have several expressions, if each of them has. -/
theorem steady_exprs {es : List Expr} (h : ∀ e ∈ es, Steady (expr b e)) : Steady (exprs b es) := by
  induction es with
  | nil =>
    rw [exprs]
    exact .pure _
  | cons e es ih =>
    obtain ⟨he, hes⟩ := List.forall_mem_cons.mp h
    rw [exprs]
    exact he.bind fun _ => (ih hes).bind fun _ => .pure _

/-- The text of an expression, or its failure, does not depend on what was noted before. -/
theorem steady_expr (e : Expr) : Steady (expr b e) := by
  have hparts : ∀ c ∈ e.children, Steady (expr b c) := fun c hc => steady_expr c
  have hmasked : Steady (do failIf (e.firstUnknown? b); placeholder e) :=
    (steady_failIf _).bind fun _ => steady_placeholder e
  cases e with
  | literal span value =>
    rw [expr]
    exact steady_literal span value
  | ident | this | super =>
    rw [expr]
    exact .pure _
  | member span target name =>
    rw [expr]
    exact (steady_failIf _).bind fun _ => (hparts target List.mem_cons_self).bind fun _ => .pure _
  | index span target key =>
    have hkey := hparts key (List.mem_cons_of_mem _ List.mem_cons_self)
    rw [expr]
    exact (hparts target List.mem_cons_self).bind fun _ => hkey.bind fun _ => .pure _
  | binary span op left right =>
    have hright := hparts right (List.mem_cons_of_mem _ List.mem_cons_self)
    rw [expr]
    exact (hparts left List.mem_cons_self).bind fun _ => (steady_operator op).bind fun _ => hright.bind fun _ => .pure _
  | paren span inner =>
    rw [expr]
    exact (hparts inner List.mem_cons_self).bind fun _ => .pure _
  | call span callee args =>
    have hargs := steady_exprs fun a ha => hparts a (List.mem_cons_of_mem _ ha)
    rw [expr]
    refine (steady_failIf _).bind fun _ => ?_
    cases callee.calledIntrinsic? b with
    | some intrinsic => exact (Steady.pure _).bind fun _ => hargs.bind fun _ => .pure _
    | none => exact (hparts callee List.mem_cons_self).bind fun _ => hargs.bind fun _ => .pure _
  | unary | update | conditional | array | object | new | asType | satisfiesType | nonNull | optionalChain =>
    rw [expr]
    exact hmasked
termination_by sizeOf e
decreasing_by exact Expr.sizeOf_lt_of_mem_children hc

end Rendering

/-! ## Writing rows -/

/-- The run has written these rows on the page, or failed if there are none. -/
def Laid (p : Page) (rows : Except RenderError (List Row)) (result : EStateM.Result RenderError Page Unit) : Prop :=
  match rows with
  | .ok rows => ∃ notes, result = .ok () { p with lines := p.lines ++ rows.map (Row.line p.unit), notes := notes }
  | .error err => ∃ p', result = .error err p'

/-- On every page of this depth, these rows are written. -/
def Lays (depth : Nat) (w : Writing RenderError Unit) (rows : Except RenderError (List Row)) : Prop :=
  ∀ p : Page, p.depth = depth → Laid p rows (w p)

/-- On every page, this value is found, or the failure is, and nothing is written. -/
def Finds {α : Type} (w : Writing RenderError α) (value : Except RenderError α) : Prop :=
  ∀ p : Page, match value with
    | .ok a => ∃ notes, w p = .ok a { p with notes := notes }
    | .error err => ∃ p', w p = .error err p'

namespace Finds

variable {α : Type}

/-- A note writes nothing. -/
theorem note (event : Event) : Finds (Writing.note event) (.ok ()) := fun _ => ⟨_, rfl⟩

/-- A value that was found before is found again. -/
theorem ofExcept (value : Except RenderError α) : Finds (Writing.ofExcept value) value := by
  intro p
  cases value with
  | ok a => exact ⟨p.notes, rfl⟩
  | error err => exact ⟨p, rfl⟩

/-- On the page the text of an expression is found. -/
theorem expr (b : Bindings) (e : Expr) : Finds (Rendering.expr b e).onPage (e.solidity b) := by
  intro p
  have hrun := Rendering.steady_expr (b := b) e [] p.notes
  unfold Rendering.onPage Expr.solidity
  rw [hrun]
  cases Rendering.expr b e p.notes with
  | ok text notes => exact ⟨notes, rfl⟩
  | error err notes => exact ⟨_, rfl⟩

end Finds

namespace Lays

variable {α : Type} {depth : Nat} {w k : Writing RenderError Unit} {x y : Except RenderError (List Row)}

/-- The rows may be described in another way. -/
theorem of_eq (h : Lays depth w x) (heq : x = y) : Lays depth w y := heq ▸ h

/-- Where nothing is done there are no rows. -/
theorem pure : Lays depth (pure ()) (.ok []) := by
  intro p hp
  refine ⟨p.notes, ?_⟩
  rw [List.map_nil, List.append_nil]
  rfl

/-- Where writing fails there are none either. -/
theorem throw (err : RenderError) : Lays depth (throw err) (.error err) := fun p _ => ⟨p, rfl⟩

/-- A line is a row at the depth of the page. -/
theorem line (text : String) : Lays depth (Writing.line text) (.ok [⟨depth, text⟩]) := by
  intro p hp
  subst hp
  exact ⟨p.notes, rfl⟩

/-- Rows are written after rows. -/
theorem append (hw : Lays depth w x) (hk : Lays depth k y) :
    Lays depth (w >>= fun _ => k) (do let rows ← x; let others ← y; return rows ++ others) := by
  intro p hp
  have hrun := hw p hp
  show Laid p _ (EStateM.bind w _ p)
  unfold EStateM.bind
  cases x with
  | error err =>
    obtain ⟨p', hp'⟩ := hrun
    rw [hp']
    exact ⟨p', rfl⟩
  | ok rows =>
    obtain ⟨notes, hnotes⟩ := hrun
    rw [hnotes]
    have hnext := hk { p with lines := p.lines ++ rows.map (Row.line p.unit), notes := notes } hp
    cases y with
    | error err => exact hnext
    | ok others =>
      obtain ⟨notes', hnotes'⟩ := hnext
      refine ⟨notes', hnotes'.trans ?_⟩
      rw [List.map_append, List.append_assoc]

/-- Rows are written between a first line and a closing brace. -/
theorem enclosed (head : String) (hw : Lays depth w x) :
    Lays depth (Writing.line head >>= fun _ => w >>= fun _ => Writing.line "\x7d")
      (do return Row.braced depth head (← x)) := by
  refine ((line head).append (hw.append (line "\x7d"))).of_eq ?_
  cases x <;> rfl

/-- What is written one level deeper has rows one level deeper. -/
theorem indented (hw : Lays (depth + 1) w x) : Lays depth (Writing.indented w) x := by
  intro p hp
  have hdeeper := hw { p with depth := p.depth + 1 } (by rw [hp])
  unfold Writing.indented
  cases x with
  | error err =>
    obtain ⟨p', hp'⟩ := hdeeper
    rw [hp']
    exact ⟨_, rfl⟩
  | ok rows =>
    obtain ⟨notes, hnotes⟩ := hdeeper
    rw [hnotes]
    exact ⟨notes, rfl⟩

section Values

variable {r : Writing RenderError α} {value : Except RenderError α} {k : α → Writing RenderError Unit}
  {y : α → Except RenderError (List Row)}

/-- A value is found before rows are written. -/
theorem find (hr : Finds r value) (hk : ∀ a, Lays depth (k a) (y a)) : Lays depth (r >>= k) (value >>= y) := by
  intro p hp
  have hrun := hr p
  show Laid p _ (EStateM.bind r k p)
  unfold EStateM.bind
  cases value with
  | error err =>
    obtain ⟨p', hp'⟩ := hrun
    rw [hp']
    exact ⟨p', rfl⟩
  | ok a =>
    obtain ⟨notes, hnotes⟩ := hrun
    rw [hnotes]
    exact hk a { p with notes := notes } hp

/-- A value can be found before a line is started, instead of after. -/
theorem line_find {text : String} (hr : Finds r value)
    (hk : ∀ a, Lays depth (Writing.line text >>= fun _ => k a) (y a)) :
    Lays depth (Writing.line text >>= fun _ => r >>= k) (value >>= y) := by
  intro p hp
  have hrun := hr (p.addLine text)
  show Laid p _ (EStateM.bind r k (p.addLine text))
  unfold EStateM.bind
  cases value with
  | error err =>
    obtain ⟨p', hp'⟩ := hrun
    rw [hp']
    exact ⟨p', rfl⟩
  | ok a =>
    obtain ⟨notes, hnotes⟩ := hrun
    rw [hnotes]
    exact hk a { p with notes := notes } hp

end Values

end Lays

/-- Text that goes on a line that was just started belongs to it from the start. -/
theorem Page.append_addLine (p : Page) (text more : String) : (p.addLine text).append more = p.addLine (text ++ more) := by
  simp [append, addLine, indentation, String.append_assoc]

namespace Writing

variable {b : Bindings} {depth : Nat}

/-- Text behind a new line is part of the line. -/
theorem line_push (text more : String) (k : Unit → Writing RenderError Unit) :
    (line text >>= fun _ => push more >>= k) = (line (text ++ more) >>= k) := by
  funext p
  show k () ((p.addLine text).append more) = k () (p.addLine (text ++ more))
  rw [Page.append_addLine]

theorem line_push_last (text more : String) :
    (line text >>= fun _ => push more : Writing RenderError Unit) = line (text ++ more) := by
  funext p
  exact congrArg (EStateM.Result.ok ()) (p.append_addLine text more)

/-- The text of an expression behind a new line is part of the line. -/
theorem lays_line_pushExpr {text : String} {e : Expr} {k : Unit → Writing RenderError Unit}
    {y : String → Except RenderError (List Row)} (hk : ∀ value, Lays depth (line (text ++ value) >>= k) (y value)) :
    Lays depth (line text >>= fun _ => pushExpr b e >>= k) (e.solidity b >>= y) := by
  rw [pushExpr]
  simp only [bind_assoc]
  refine .line_find (.expr b e) fun value => ?_
  rw [line_push]
  exact hk value

/-! ## Statements -/

/-- A variable is a row of its own. -/
theorem lays_declarator (d : Declarator) :
    Lays depth (line "" >>= fun _ => declarator b d) (do return [⟨depth, ← d.solidity b⟩]) := by
  unfold declarator Declarator.solidity
  cases d.init with
  | none => exact (Lays.line "").append (.throw _)
  | some init =>
    simp only [bind_assoc, pure_bind]
    refine .line_find (.ofExcept _) fun type => ?_
    rw [line_push]
    refine lays_line_pushExpr fun value => ?_
    rw [line_push_last, String.empty_append]
    exact .line _

/-- Each variable after the first one is a row of its own. -/
theorem lays_moreDeclarators (ds : List Declarator) :
    Lays depth (moreDeclarators b ds) (do return (← ds.mapM (Declarator.solidity b)).map (Row.mk depth)) := by
  induction ds with
  | nil => exact .pure
  | cons d ds ih =>
    rw [moreDeclarators, ← bind_assoc]
    refine ((lays_declarator d).append ih).of_eq ?_
    simp [List.mapM_cons]

/-- What is written for a statement in a place, with the line that its list has started. -/
def opened : Place → Writing RenderError Unit → Writing RenderError Unit
  | .lastLine, w => line "" >>= fun _ => w
  | .branch, w => w

/-- The line that a statement starts is the one its list has opened. -/
theorem opened_start (place : Place) (k : Unit → Writing RenderError Unit) :
    opened place (place.start >>= k) = (line "" >>= k) := by
  cases place <;> rfl

/-- A placeholder is a row of its own. -/
theorem lays_stmtPlaceholder (s : Stmt) :
    Lays depth (line "" >>= fun _ => stmtPlaceholder b s) (do return [⟨depth, ← s.placeholder b⟩]) := by
  unfold stmtPlaceholder Stmt.placeholder
  cases firstUnknown? b s with
  | some err => exact (Lays.line "").append (.throw _)
  | none =>
    refine (Lays.line_find (.note _) (y := fun _ => _) fun _ => ?_).of_eq rfl
    rw [line_push_last, String.empty_append]
    exact .line _

mutual

/-- Writing a statement gives its rows. -/
theorem lays_stmtAt (place : Place) (depth : Nat) (s : Stmt) (h : s.Throughout Stmt.DeclaresSome) :
    Lays depth (opened place (stmtAt b place s)) (s.rows b place depth) := by
  cases s with
  | return_ span value =>
    rw [stmtAt, opened_start, line_push, String.empty_append]
    cases value with
    | none =>
      dsimp only
      rw [Stmt.rows, line_push_last]
      exact .line _
    | some e =>
      dsimp only
      rw [Stmt.rows, line_push]
      refine lays_line_pushExpr fun text => ?_
      rw [line_push_last]
      exact .line _
  | if_ span cond thenBranch elseBranch =>
    rw [stmtAt, Stmt.rows, opened_start, line_push, String.empty_append]
    refine lays_line_pushExpr fun test => ?_
    rw [line_push]
    have hthen : Lays (depth + 1) (stmtAt b .branch thenBranch) _ :=
      lays_stmtAt .branch (depth + 1) thenBranch (h.parts _ List.mem_cons_self)
    have helse := lays_elseAt depth elseBranch fun s hs => h.parts s (List.mem_cons_of_mem _ (Option.mem_toList.mpr hs))
    simpa only [bind_assoc, pure_bind] using (hthen.indented.enclosed _).append helse
  | var span kind decls =>
    rw [stmtAt, Stmt.rows, opened_start]
    obtain ⟨d, ds, rfl⟩ := List.exists_cons_of_ne_nil h.own
    exact lays_moreDeclarators (d :: ds)
  | expr span e =>
    rw [stmtAt, Stmt.rows, opened_start]
    refine lays_line_pushExpr fun text => ?_
    rw [line_push_last, String.empty_append]
    exact .line _
  | while_ span cond body =>
    rw [stmtAt, Stmt.rows, opened_start, line_push, String.empty_append]
    refine lays_line_pushExpr fun test => ?_
    rw [line_push]
    have hbody := lays_stmtAt .branch (depth + 1) body (h.parts _ List.mem_cons_self)
    exact hbody.indented.enclosed _
  | block span ss =>
    cases place with
    | branch =>
      rw [stmtAt, Stmt.rows]
      exact lays_stmts depth ss h.parts
    | lastLine =>
      rw [stmtAt, Stmt.rows]
      exact lays_stmtPlaceholder _
  | doWhile | for_ | forEach | break_ | continue_ | throw | empty =>
    rw [stmtAt, Stmt.rows, opened_start]
    exact lays_stmtPlaceholder _

/-- The rows of an `else` are written. -/
theorem lays_elseAt (depth : Nat) (branch : Option Stmt) (h : ∀ s ∈ branch, s.Throughout Stmt.DeclaresSome) :
    Lays depth (elseAt b branch) (Stmt.elseRows b depth branch) := by
  cases branch with
  | none => exact .pure
  | some s =>
    have hbranch := lays_stmtAt .branch depth s (h s rfl)
    rw [elseAt, Stmt.elseRows]
    exact hbranch.enclosed _

/-- The rows of statements are written one after the other. -/
theorem lays_stmts (depth : Nat) (ss : List Stmt) (h : ∀ s ∈ ss, s.Throughout Stmt.DeclaresSome) :
    Lays depth (stmts b ss) (Stmt.rowsOf b depth ss) := by
  cases ss with
  | nil => exact .pure
  | cons s ss =>
    obtain ⟨hs, hss⟩ := List.forall_mem_cons.mp h
    rw [stmts, ← bind_assoc, Stmt.rowsOf]
    exact (lays_stmtAt .lastLine depth s hs).append (lays_stmts depth ss hss)

end

/-! ## Members and classes -/

/-- The rows of a callable are written. -/
theorem lays_callable (name : String) (params : List Param) (returns : Option TypeExpr) (body : Option Block)
    (h : ∀ s ∈ body.toList.flatMap Block.stmts, s.Throughout Stmt.DeclaresSome) :
    Lays 1 (callable b name params returns body) (callableRows b name params returns body) := by
  unfold callable callableRows
  rw [signature_eq_callableHead]
  refine .find (.ofExcept _) fun head => ?_
  cases body with
  | none => exact Lays.pure.enclosed head
  | some block =>
    have hstmts := lays_stmts (b := b) 2 block.stmts (by simpa using h)
    simpa using hstmts.indented.enclosed head

/-- A property is one row: its type, its bare name and its value. -/
theorem lays_property (span : Span) (name : Ident) (type : TypeExpr) (init : Option Expr) :
    Lays 1 (property b span name (some type) init) (do
      let typeText ← type.solidity
      let value ← initializer b init
      return [⟨1, typeText ++ " " ++ name.bare ++ value ++ ";"⟩]) := by
  unfold property
  refine .find (.ofExcept _) fun typeText => ?_
  cases init with
  | none => exact .line _
  | some e =>
    rw [initializer]
    simp only [bind_assoc, pure_bind]
    exact .find (.expr b e) fun value => .line _

/-- Writing a member gives its rows. -/
theorem lays_member (m : Member) (h : m.shape.DeclaresVariables) : Lays 1 (member b m) (m.rows b) := by
  unfold member Member.rows
  unfold MemberShape.DeclaresVariables at h
  cases hshape : m.shape with
  | property name type init =>
    cases type with
    | none => exact .throw _
    | some type => exact lays_property m.span name type init
  | constructor params body =>
    rw [hshape] at h
    exact lays_callable constructorName params none body h
  | method name params returns body =>
    rw [hshape] at h
    exact (lays_callable name.name params returns body h).append (.line "")
  | accessor | indexSignature => exact .find (.note _) fun _ => .line _

/-- The rows of members are written one after the other. -/
theorem lays_members (ms : List Member) (h : ∀ m ∈ ms, m.shape.DeclaresVariables) :
    Lays 1 (members b ms) (do return (← ms.mapM (Member.rows b)).flatten) := by
  induction ms with
  | nil => exact .pure
  | cons m ms ih =>
    obtain ⟨hm, hms⟩ := List.forall_mem_cons.mp h
    rw [members]
    refine ((lays_member m hm).append (ih hms)).of_eq ?_
    simp [List.mapM_cons]

/-- The rows of a class are written. -/
theorem lays_contract {c : ClassDecl} (h : c.DeclaresVariables) : Lays 0 (contract b c) (c.rows b) := by
  have hmembers := (lays_members (b := b) c.members h).indented.enclosed ("contract " ++ c.name.name ++ " \x7b")
  refine (Lays.find (.note (.rendering c.name.name)) fun _ => hmembers).of_eq ?_
  simp [ClassDecl.rows]
  rfl

end Writing

/-- A class is written as its rows, each behind its indentation, or refused if it has none. -/
theorem ClassDecl.render_eq_rows {c : ClassDecl} (h : c.DeclaresVariables) (unit : String) (b : Bindings) :
    c.render unit b = (c.rows b).map fun rows => ⟨c.name.name, rows.map (Row.line unit)⟩ := by
  have hlaid := Writing.lays_contract (b := b) h (Page.blank unit) rfl
  unfold ClassDecl.render
  cases hrows : c.rows b with
  | error err =>
    rw [hrows] at hlaid
    obtain ⟨p', hp'⟩ := hlaid
    rw [hp']
    rfl
  | ok rows =>
    rw [hrows] at hlaid
    obtain ⟨notes, hnotes⟩ := hlaid
    rw [hnotes]
    rfl

/-- A class whose variable statements declare variables, as those of every class read from a source text do, is refused with
a failure that does not depend on the indentation, or has rows that do not, and is written as these rows. -/
theorem render_refines_layout (c : ClassDecl) (b : Bindings) :
    (c.DeclaresVariables → ∀ unit : String,
      c.render unit b = (c.rows b).map fun rows => ⟨c.name.name, rows.map (Row.line unit)⟩) ∧
    ∀ source : String, c ∈ (parse source).file.classes → c.DeclaresVariables :=
  ⟨fun h unit => c.render_eq_rows h unit b, fun _ hc => declaresVariables_readTokens hc⟩

/-- A private method with two branches, the second of which declares two variables. -/
def branchingSource : String :=
  "class A \x7b x: T; #f(a: T) \x7b if (a) return a; else \x7b let x = 1, y = a; \x7d \x7d \x7d"

/-- The class in `branchingSource`. -/
def branchingClass : ClassDecl :=
  let a (start stop : Nat) : Expr := .ident ⟨"a", ⟨start, stop⟩⟩
  let type (start stop : Nat) : TypeExpr := .named ⟨start, stop⟩ [⟨"T", ⟨start, stop⟩⟩] []
  let decls : List Declarator :=
    [⟨⟨"x", ⟨55, 56⟩⟩, none, some (.literal ⟨59, 60⟩ (.number "1")), ⟨55, 60⟩⟩,
     ⟨⟨"y", ⟨62, 63⟩⟩, none, some (a 66 67), ⟨62, 67⟩⟩]
  ⟨⟨"A", ⟨6, 7⟩⟩, none, [], false,
    [⟨[], [], .property ⟨"x", ⟨10, 11⟩⟩ (some (type 13 14)) none, ⟨10, 15⟩⟩,
     ⟨[], [], .method ⟨"#f", ⟨16, 18⟩⟩ [⟨⟨"a", ⟨19, 20⟩⟩, some (type 22 23), false, none, [], ⟨19, 23⟩⟩] none
        (some ⟨[.if_ ⟨27, 70⟩ (a 31 32) (.return_ ⟨34, 43⟩ (some (a 41 42)))
          (some (.block ⟨49, 70⟩ [.var ⟨51, 68⟩ .let_ decls]))], ⟨25, 72⟩⟩), ⟨16, 72⟩⟩], ⟨0, 74⟩⟩

/-- The rows of `branchingClass`, for every indentation. -/
theorem branchingClass_rows :
    branchingClass ∈ (parse branchingSource).file.classes ∧
      ∀ unit : String, branchingClass.render unit ⟨[]⟩ = .ok ⟨"A",
        [⟨0, "contract A \x7b"⟩, ⟨1, "T x;"⟩, ⟨1, "function f(T a) private \x7b"⟩, ⟨2, "if (a) \x7b"⟩, ⟨3, "return a;"⟩,
         ⟨2, "\x7d"⟩, ⟨2, "else \x7b"⟩, ⟨2, "var x = 1;"⟩, ⟨2, "var y = a;"⟩, ⟨2, "\x7d"⟩, ⟨1, "\x7d"⟩, ⟨1, ""⟩,
         ⟨0, "\x7d"⟩].map (Row.line unit)⟩ := by
  have hclasses : (parse branchingSource).file.classes = [branchingClass] := by decide +kernel
  have hmem : branchingClass ∈ (parse branchingSource).file.classes := hclasses ▸ List.mem_singleton.mpr rfl
  obtain ⟨hrender, hdeclares⟩ := render_refines_layout branchingClass ⟨[]⟩
  exact ⟨hmem, hrender (hdeclares branchingSource hmem)⟩

end ContractCompiler
