import ContractCompiler.Proofs.Formatting.Moving
import ContractCompiler.Reading.Items

/-!
# The grammar does not see where tokens stand

Every parser of the grammar gives, on moved tokens, the tree it gives on the tokens themselves, moved. So reading a list of
tokens gives the same tree and the same errors up to places.
-/

namespace ContractCompiler.Reformatting

open ContractCompiler.Parser

variable {R : Reformatting}

/-! ## Types -/

section Types

variable (inner : Parser TypeExpr) [R.Uniform inner]

instance uniform_namedType : R.Uniform (namedType inner) := by
  refine ⟨.step fun first => .bind (moves_dottedFrom first _) fun path => .step fun _ => ?_⟩
  refine .either Uniform.moves (.pure rfl) fun args => ?_
  exact .spanned rfl fun _ => (TypeExpr.move_named ..).symm

instance uniform_primaryType : R.Uniform (primaryType inner) := by
  refine ⟨.token fun kind span afterBreak => ?_⟩
  dsimp only
  split
  · exact .step fun _ => .pure rfl
  · exact .step fun _ => .ite (.step fun _ => .step fun _ => .pure rfl) Uniform.moves

instance uniform_arrayType : R.Uniform (arrayType inner) := by
  refine ⟨.token fun kind span afterBreak => .step fun elem => .chain (fun type => ?_) elem⟩
  refine .step fun _ => .kind 1 fun next => .ite ?_ (.pure rfl)
  exact .step fun _ => .spanned rfl fun _ => rfl

instance uniform_unionType : R.Uniform (unionType inner) := by
  refine ⟨.token fun kind span afterBreak => .step fun _ => .step fun first => .step fun _ => .ite ?_ (.pure rfl)⟩
  refine .bind (.collect (.step fun _ => .ite (.step fun _ => .pure rfl) (.pure rfl))) fun more => ?_
  exact .spanned rfl fun span => (TypeExpr.move_union _ span (first :: more)).symm

end Types

instance uniform_typeWithin (n : Nat) : R.Uniform (typeWithin n) := by
  induction n with
  | zero => exact uniform_fail _
  | succ n ih => exact uniform_unionType _

instance uniform_typeExpr : R.Uniform typeExpr := uniform_bounded uniform_typeWithin

instance uniform_annotation : R.Uniform annotation := uniform_after _ _

/-! ## Expressions -/

/-- What stands after a point is read alike after a moved expression. -/
theorem moves_memberSuffix (target : Expr) : R.Moves (memberSuffix (move R.place target)) (memberSuffix target) := by
  refine .step fun _ => .step fun name => .pure ?_
  show Expr.member _ _ _ = Expr.member _ _ _
  rw [Expr.span_move, ← R.through_move]
  rfl

section Expressions

variable (inner : ExprForm → Parser Expr) [∀ form, R.Uniform (inner form)]

instance uniform_arguments : R.Uniform (arguments inner) := by
  refine ⟨.step fun _ => .ite (.pure rfl) (.collect (.option Uniform.moves (.pure rfl) fun arg => ?_))⟩
  refine .step fun _ => .ite (.pure rfl) (.step fun _ => .ite ?_ ?_)
  · exact .step fun _ => .pure rfl
  · exact .step fun _ => .pure rfl

theorem moves_callSuffix (target : Expr) : R.Moves (callSuffix inner (move R.place target)) (callSuffix inner target) := by
  refine .step fun args => .spanned ?_ fun _ => (Expr.move_call ..).symm
  rw [Expr.span_move]
  rfl

theorem moves_indexSuffix (target : Expr) :
    R.Moves (indexSuffix inner (move R.place target)) (indexSuffix inner target) := by
  refine .step fun index => .step fun _ => .spanned ?_ fun _ => rfl
  rw [Expr.span_move]
  rfl

theorem moves_optionalLink (target : Expr) :
    R.Moves (optionalLink inner (move R.place target)) (optionalLink inner target) := by
  have hlink : ∀ link : Expr, Expr.optionalChain (move R.place link).span (move R.place link) =
      move R.place (Expr.optionalChain link.span link) := by
    intro link
    rw [Expr.span_move]
    rfl
  refine .kind 1 fun kind => ?_
  dsimp only
  split
  · exact .step fun _ => .bind (moves_callSuffix inner target) fun link => .pure (hlink link)
  · exact .step fun _ => .bind (moves_indexSuffix inner target) fun link => .pure (hlink link)
  · exact .bind (moves_memberSuffix target) fun link => .pure (hlink link)

theorem moves_suffix? (target : Expr) : R.Moves (suffix? inner (move R.place target)) (suffix? inner target) := by
  refine .token fun kind span afterBreak => ?_
  dsimp only
  split
  · exact .bind (moves_optionalLink inner target) fun _ => .pure rfl
  · refine .ite (.pure rfl) (.step fun _ => .spanned ?_ fun _ => rfl)
    rw [Expr.span_move]
    rfl
  · exact .step fun _ => .bind (moves_callSuffix inner target) fun _ => .pure rfl
  · exact .bind (moves_memberSuffix target) fun _ => .pure rfl
  · exact .step fun _ => .bind (moves_indexSuffix inner target) fun _ => .pure rfl
  · exact .pure rfl

instance uniform_newExpr : R.Uniform (newExpr inner) := by
  refine ⟨.token fun kind span afterBreak => .step fun _ => .step fun primary => ?_⟩
  refine .bind (.chain ?_ primary) fun callee => .step fun _ => .step fun _ => ?_
  · exact fun target => .step fun _ => .ite (.bind (moves_memberSuffix target) fun _ => .pure rfl) (.pure rfl)
  · exact .either Uniform.moves (.pure rfl) fun args => .spanned rfl fun _ => (Expr.move_new ..).symm

instance uniform_field : R.Uniform (field inner) :=
  ⟨.step fun _ => .step fun _ => .ite (.step fun _ => .pure rfl) (.pure rfl)⟩

instance uniform_primaryExpr : R.Uniform (primaryExpr inner) := by
  refine ⟨.token fun kind span afterBreak => ?_⟩
  dsimp only
  split
  · exact .step fun _ => .pure rfl
  · split
    · exact .step fun _ => .pure rfl
    · exact .step fun _ => .pure rfl
    · exact Uniform.moves
    · exact .step fun _ => .step fun _ => .step fun _ => .spanned rfl fun _ => rfl
    · exact .step fun _ => .step fun _ => .spanned rfl fun _ => (Expr.move_array ..).symm
    · exact .step fun _ => .step fun _ => .spanned rfl fun _ => (Expr.move_object ..).symm
    · exact .step fun _ => .pure rfl

instance uniform_postfixExpr : R.Uniform (postfixExpr inner) :=
  ⟨.step fun primary => .chain (moves_suffix? inner) primary⟩

instance uniform_unaryExpr : R.Uniform (unaryExpr inner) := by
  refine ⟨.token fun kind span afterBreak => ?_⟩
  dsimp only
  split
  · exact .step fun _ => .step fun _ => .spanned rfl fun _ => rfl
  · exact .step fun _ => .step fun _ => .spanned rfl fun _ => rfl
  · refine .step fun e => .token fun next nextSpan nextBreak => ?_
    dsimp only
    split
    · exact .ite (.pure rfl) (.step fun _ => .spanned rfl fun _ => rfl)
    · exact .pure rfl

/-- A binary expression of moved operands. -/
theorem move_binary (op : BinaryOp) (left right : Expr) :
    Expr.binary ((move R.place left).span.through (move R.place right).span) op (move R.place left) (move R.place right) =
      move R.place (Expr.binary (left.span.through right.span) op left right) := by
  rw [Expr.span_move, Expr.span_move, R.through_move]
  rfl

instance uniform_exponentExpr : R.Uniform (exponentExpr inner) :=
  ⟨.step fun base => .step fun _ => .ite (.step fun exponent => .pure (move_binary _ base exponent)) (.pure rfl)⟩

end Expressions

instance uniform_asTarget : R.Uniform asTarget :=
  ⟨.token fun _ _ _ => .ite (.step fun _ => .pure rfl) Uniform.moves⟩

/-- An assertion is read alike after a moved expression. -/
theorem moves_assertion? (left : Expr) : R.Moves (assertion? (move R.place left)) (assertion? left) := by
  refine .token fun kind span afterBreak => .ite (.pure rfl) (.ite ?_ (.ite ?_ (.pure rfl)))
  · refine .step fun _ => .step fun type => .pure ?_
    rw [Expr.span_move, TypeExpr.span_move, R.through_move]
    rfl
  · refine .step fun _ => .step fun type => .pure ?_
    rw [Expr.span_move, TypeExpr.span_move, R.through_move]
    rfl

theorem moves_operation? (tier : Tier) (operand : Parser Expr) [R.Uniform operand] (left : Expr) :
    R.Moves (operation? tier operand (move R.place left)) (operation? tier operand left) := by
  refine .state fun s hs => ?_
  have hop : (move R.place s).binaryOp? tier = s.binaryOp? tier := by
    unfold Cursor.binaryOp?
    rw [show (move R.place s).rightShift? = s.rightShift? from rightShift?_move hs.suffix]
    rfl
  rw [hop]
  split
  · exact .step fun _ => .step fun right => .pure (congrArg some (move_binary _ left right))
  · exact .pure rfl

theorem moves_tierStep (tier : Tier) (operand : Parser Expr) [R.Uniform operand] (left : Expr) :
    R.Moves (tierStep tier operand (move R.place left)) (tierStep tier operand left) := by
  refine .ite (.option (moves_assertion? left) ?_ fun e => .pure rfl) (moves_operation? tier operand left)
  exact moves_operation? tier operand left

section Layers

variable (inner : ExprForm → Parser Expr) [∀ form, R.Uniform (inner form)]

instance uniform_binaryExpr (tiers : List Tier) : R.Uniform (binaryExpr inner tiers) := by
  induction tiers with
  | nil => exact uniform_exponentExpr inner
  | cons tier tighter ih => exact ⟨.step fun first => .chain (moves_tierStep tier _) first⟩

instance uniform_conditionalExpr : R.Uniform (conditionalExpr inner) := by
  refine ⟨.step fun test => .step fun _ => .ite ?_ (.pure rfl)⟩
  refine .step fun consequent => .step fun _ => .step fun alternate => .pure ?_
  rw [Expr.span_move, Expr.span_move, R.through_move]
  rfl

instance uniform_assignmentExpr : R.Uniform (assignmentExpr inner) := by
  refine ⟨.step fun left => .state fun s hs => ?_⟩
  have hop : (move R.place s).assignOp? = s.assignOp? := by
    unfold Cursor.assignOp?
    rw [show (move R.place s).rightShift? = s.rightShift? from rightShift?_move hs.suffix]
    rfl
  rw [hop]
  split
  · exact .step fun _ => .step fun right => .pure (move_binary _ left right)
  · exact .pure rfl

instance uniform_exprLayer (form : ExprForm) : R.Uniform (exprLayer inner form) := by
  cases form with
  | assignment => exact uniform_assignmentExpr inner
  | exponent => exact uniform_exponentExpr inner
  | unary => exact uniform_unaryExpr inner
  | primary => exact uniform_primaryExpr inner

end Layers

instance uniform_exprWithin (n : Nat) (form : ExprForm) : R.Uniform (exprWithin n form) := by
  induction n generalizing form with
  | zero => exact uniform_fail _
  | succ n ih => exact uniform_exprLayer _ form

instance uniform_expression : R.Uniform expression := uniform_bounded fun n => uniform_exprWithin n .assignment

instance uniform_decoratorArgs : R.Uniform decoratorArgs := uniform_arguments _

/-! ## Statements -/

instance uniform_terminator : R.Uniform terminator :=
  ⟨.step fun _ => .ite (.pure rfl) (.token fun _ _ _ => .ite (.pure rfl) Uniform.moves)⟩

instance uniform_condition (construct : Construct) : R.Uniform (condition construct) :=
  ⟨.step fun _ => .step fun _ => .step fun _ => .pure rfl⟩

instance uniform_declarator : R.Uniform declarator := by
  refine ⟨.token fun kind span afterBreak => .ite (.step fun _ => ?_) ?_⟩
  all_goals exact .step fun _ => .step fun _ => .step fun _ => .step fun _ => .spanned rfl fun _ => rfl

instance uniform_declarators : R.Uniform declarators := ⟨.collect (.step fun _ => .step fun _ => .pure rfl)⟩

instance uniform_returnStmt : R.Uniform returnStmt := by
  refine ⟨.token fun _ span _ => .step fun _ => .token fun kind _ afterBreak => ?_⟩
  refine .either (.pure rfl) (.map Uniform.moves fun _ => rfl) fun value => ?_
  exact .step fun _ => .spanned rfl fun _ => rfl

section Statements

variable (inner : Parser Stmt) [R.Uniform inner]

instance uniform_stmtsUpToBrace : R.Uniform (stmtsUpToBrace inner) := by
  refine ⟨.collect (.step fun _ => .ite (.pure rfl) (.step fun _ => .ite (.pure rfl) ?_))⟩
  exact .option Uniform.moves (.step fun _ => .step fun _ => .pure rfl) fun _ => .pure rfl

instance uniform_blockOf : R.Uniform (blockOf inner) :=
  ⟨.token fun _ _ _ => .step fun _ => .step fun _ => .spanned rfl fun _ => rfl⟩

/-- The rest of a `for` over a collection starts where the moved `for` does. -/
theorem moves_forEachTail (start : Nat) (kind : VarKind) :
    R.Moves (forEachTail inner (R.place start) kind) (forEachTail inner start kind) := by
  have hrest : ∀ binding traversal, R.Moves (do
      let iterable ← expression
      expect .rparen .forEachClose
      let body ← inner
      return Stmt.forEach (← spanFrom (R.place start)) kind (move R.place binding) traversal iterable body) (do
      let iterable ← expression
      expect .rparen .forEachClose
      let body ← inner
      return .forEach (← spanFrom start) kind binding traversal iterable body) := fun binding traversal =>
    .step fun _ => .step fun _ => .step fun _ => .spanned rfl fun _ => rfl
  refine .step fun binding => .step fun _ => .ite ?_ (.step fun _ => ?_)
  · exact .bind (.pure rfl) (hrest binding)
  · exact .bind (.pure rfl) (hrest binding)

/-- The rest of a counting `for` goes on after what it starts with, moved. -/
theorem moves_forTail (start : Nat) (init : Option Stmt) :
    R.Moves (forTail inner (R.place start) (move R.place init)) (forTail inner start init) := by
  refine .step fun _ => .step fun _ => .either (.pure rfl) (.map Uniform.moves fun _ => rfl) fun test => ?_
  refine .step fun _ => .step fun _ => .either (.pure rfl) (.map Uniform.moves fun _ => rfl) fun update => ?_
  exact .step fun _ => .step fun body => .spanned rfl fun _ => (Stmt.move_for ..).symm

instance uniform_forStmt : R.Uniform (forStmt inner) := by
  refine ⟨.token fun _ span _ => .step fun _ => .step fun _ => .token fun kind span' afterBreak => ?_⟩
  dsimp only
  split
  · refine .step fun _ => .kind 1 fun next => .ite (moves_forEachTail inner _ _) (.step fun decls => ?_)
    exact .span rfl fun span => moves_forTail inner _ (some (.var span _ decls))
  · refine .ite (moves_forTail inner _ none) (.step fun e => ?_)
    rw [Expr.span_move]
    exact moves_forTail inner _ (some (.expr e.span e))

instance uniform_ifStmt : R.Uniform (ifStmt inner) := by
  refine ⟨.token fun _ span _ => .step fun _ => .step fun cond => .step fun thenBranch => .step fun _ => ?_⟩
  refine .either (.map Uniform.moves fun _ => rfl) (.pure rfl) fun elseBranch => ?_
  exact .spanned rfl fun _ => (Stmt.move_if ..).symm

instance uniform_doStmt : R.Uniform (doStmt inner) :=
  ⟨.token fun _ _ _ => .step fun _ => .step fun _ => .step fun _ => .step fun _ => .step fun _ =>
    .spanned rfl fun _ => rfl⟩

instance uniform_stmtLayer : R.Uniform (stmtLayer inner) := by
  refine ⟨.token fun kind span afterBreak => ?_⟩
  dsimp only
  split
  · exact .step fun block => .pure (Stmt.move_block ..).symm
  · exact .step fun _ => .spanned rfl fun _ => rfl
  · exact Uniform.moves
  · exact Uniform.moves
  · exact .step fun _ => .step fun _ => .step fun _ => .spanned rfl fun _ => rfl
  · exact Uniform.moves
  · exact Uniform.moves
  · exact .step fun _ => .step fun _ => .spanned rfl fun _ => rfl
  · exact .step fun _ => .step fun _ => .spanned rfl fun _ => rfl
  · exact .step fun _ => .step fun _ => .step fun _ => .spanned rfl fun _ => rfl
  · split
    · exact .step fun _ => .step fun _ => .step fun _ => .spanned rfl fun _ => rfl
    · exact .step fun _ => .step fun _ => .spanned rfl fun _ => rfl

end Statements

instance uniform_stmtWithin (n : Nat) : R.Uniform (stmtWithin n) := by
  induction n with
  | zero => exact uniform_fail _
  | succ n ih => exact uniform_stmtLayer _

instance uniform_statement : R.Uniform statement := uniform_bounded uniform_stmtWithin

instance uniform_block : R.Uniform block := uniform_blockOf _

/-! ## Classes -/

instance uniform_modifiers : R.Uniform modifiers := by
  refine ⟨.collect (.state fun s _ => ?_)⟩
  have hmodifier : (move R.place s).modifier? = s.modifier? := by
    unfold Cursor.modifier?
    rw [show (move R.place s).kindAt 1 = s.kindAt 1 from kindAt_move R.place s.toCursor 1]
    rfl
  rw [hmodifier]
  split
  · exact .step fun _ => .pure rfl
  · exact .pure rfl

instance uniform_decorators : R.Uniform decorators := by
  refine ⟨.collect (.token fun kind span afterBreak => .step fun _ => .ite ?_ (.pure rfl))⟩
  exact .option Uniform.moves (.pure rfl) fun name => .step fun args => .spanned rfl fun _ => rfl

instance uniform_param : R.Uniform param := by
  refine ⟨.token fun _ _ _ => .step fun mods => .step fun _ => .step fun _ => .step fun _ => .step fun _ => ?_⟩
  rw [move_modifiers]
  exact .spanned rfl fun _ => rfl

instance uniform_params : R.Uniform params := uniform_listUpTo _ _ _

instance uniform_body : R.Uniform body :=
  ⟨.step fun _ => .ite (.map Uniform.moves fun _ => rfl) (.step fun _ => .pure rfl)⟩

instance uniform_accessor (kind : AccessorKind) : R.Uniform (accessor kind) :=
  ⟨.step fun _ => .step fun _ => .step fun _ => .step fun _ => .step fun _ => .step fun _ => .pure rfl⟩

instance uniform_indexSignature : R.Uniform indexSignature :=
  ⟨.step fun _ => .step fun _ => .step fun _ => .step fun _ => .step fun _ => .step fun _ => .step fun _ =>
    .step fun _ => .pure rfl⟩

instance uniform_namedMember : R.Uniform namedMember := by
  refine ⟨.step fun name => .step fun _ => .ite ?_ (.step fun _ => ?_)⟩
  all_goals
    refine .step fun _ => .step fun _ => .ite ?_ ?_
    · exact .step fun _ => .step fun _ => .step fun _ => .step fun _ => .step fun _ => .pure rfl
    · exact .step fun _ => .step fun _ => .step fun _ => .pure rfl

instance uniform_memberShape : R.Uniform memberShape := by
  refine ⟨.kind 1 fun next => .token fun kind _ _ => ?_⟩
  dsimp only
  split
  · exact .ite Uniform.moves Uniform.moves
  · exact .ite Uniform.moves Uniform.moves
  · exact Uniform.moves
  · exact .ite (.step fun _ => .step fun _ => .step fun _ => .pure rfl) Uniform.moves
  · exact Uniform.moves

instance uniform_member : R.Uniform member := by
  refine ⟨.token fun _ _ _ => .step fun _ => .step fun mods => .step fun _ => ?_⟩
  rw [move_modifiers]
  exact .spanned rfl fun _ => rfl

instance uniform_members : R.Uniform members := by
  refine ⟨.collect (.step fun _ => .ite (.pure rfl) (.step fun _ => .ite (.pure rfl) (.step fun _ => .ite (.pure rfl) ?_)))⟩
  exact .option Uniform.moves (.step fun _ => .pure rfl) fun _ => .pure rfl

instance uniform_baseClass : R.Uniform baseClass := by
  refine ⟨.step fun _ => .ite (.step fun first => .bind (moves_dottedFrom first _) fun path => ?_) (.pure rfl)⟩
  exact .step fun _ => .pure rfl

/-- A class is read alike after its moved decorators, and starts where the moved class does. -/
theorem moves_classDecl (decs : List Decorator) (isAbstract : Bool) (start : Nat) :
    R.Moves (classDecl (move R.place decs) isAbstract (R.place start)) (classDecl decs isAbstract start) := by
  refine .step fun _ => .step fun name => .step fun _ => .step fun base => .step fun _ => .step fun _ => ?_
  refine .step fun ms => ?_
  rw [show (move R.place ms).length = ms.length from List.length_map _]
  exact .step fun _ => .spanned rfl fun _ => rfl

/-! ## Items -/

instance uniform_importPath (what : Missing) : R.Uniform (importPath what) := by
  refine ⟨.token fun kind _ _ => ?_⟩
  dsimp only
  split
  · exact .step fun _ => .step fun _ => .pure rfl
  · exact Uniform.moves

instance uniform_importFrom : R.Uniform importFrom := ⟨.step fun _ => Uniform.moves⟩

instance uniform_importSpecifier : R.Uniform importSpecifier :=
  ⟨.step fun _ => .step fun _ => .ite (.step fun _ => .pure rfl) (.pure rfl)⟩

/-- The names of an import are read alike after a moved default name. -/
theorem moves_importNames (default : Option Ident) :
    R.Moves (importNames (move R.place default)) (importNames default) := by
  refine .step fun _ => .ite ?_ (.step fun _ => .ite ?_ ?_)
  · exact .step fun _ => .step fun _ => .step fun _ => .pure rfl
  · exact .step fun _ => .step fun _ => .pure rfl
  · exact .step fun _ => .pure rfl

instance uniform_importDecl : R.Uniform importDecl := by
  refine ⟨.step fun _ => .state fun s _ => ?_⟩
  have htype : (move R.place s).atTypeImport = s.atTypeImport := by
    unfold Cursor.atTypeImport
    rw [show (move R.place s).kindAt 1 = s.kindAt 1 from kindAt_move R.place s.toCursor 1]
    rfl
  rw [htype]
  refine .ite (.step fun _ => ?_) ?_
  all_goals
    refine .token fun kind span _ => ?_
    dsimp only
    split
    · exact .step fun _ => .pure rfl
    · split
      · exact .step fun _ => .step fun _ => .ite (moves_importNames (some ⟨_, span⟩)) (.step fun _ => .pure rfl)
      · exact moves_importNames none

instance uniform_item : R.Uniform item := by
  refine ⟨.token fun _ span _ => .step fun decs => .step fun exported => .ite (.step fun _ => ?_) ?_⟩
  all_goals
    have hother : R.Moves (do
        skip Cursor.otherStep .fresh
        let shape ← pure ItemShape.other
        return Item.mk exported shape (← spanFrom (R.place span.start))) (do
        skip Cursor.otherStep .fresh
        let shape ← pure ItemShape.other
        return ⟨exported, shape, ← spanFrom span.start⟩) :=
      .step fun _ => .bind (.pure rfl) fun _ => .spanned rfl fun _ => rfl
    refine .kind 1 fun next => .token fun kind _ _ => ?_
    rw [show (move R.place decs).isEmpty = decs.isEmpty from List.isEmpty_map]
    dsimp only
    split
    · exact .bind (.map (moves_classDecl decs false span.start) fun _ => rfl) fun _ => .spanned rfl fun _ => rfl
    · refine .ite (.step fun _ => ?_) hother
      exact .bind (.map (moves_classDecl decs true span.start) fun _ => rfl) fun _ => .spanned rfl fun _ => rfl
    · exact .ite (.bind (.map Uniform.moves fun _ => rfl) fun _ => .spanned rfl fun _ => rfl) hother
    · exact hother

instance uniform_items : R.Uniform items := by
  refine ⟨.collect (.step fun _ => .ite (.pure rfl) ?_)⟩
  exact .option Uniform.moves (.step fun _ => .pure rfl) fun _ => .pure rfl

/-- Reading moved tokens gives the items and the state that the tokens give, moved; its errors are at tokens. -/
theorem readTokens_move (R : Reformatting) (hne : R.tokens ≠ []) :
    readTokens (move R.place R.tokens) = move R.place (readTokens R.tokens) ∧
      ∀ e ∈ (readTokens R.tokens).2.errors, e.At R.tokens := by
  obtain ⟨t, ts, htokens⟩ := List.exists_cons_of_ne_nil hne
  have hfits : R.Fits ⟨Cursor.start R.tokens, [], []⟩ := by
    refine ⟨?_, nofun⟩
    rw [htokens]
    exact List.suffix_refl _
  have hrun := uniform_items.moves _ hfits
  have hsettled := hfits.settled items
  have hstart : ParserState.mk (Cursor.start (move R.place R.tokens)) [] [] =
      move R.place ⟨Cursor.start R.tokens, [], []⟩ := by
    rw [htokens]
    rfl
  unfold readTokens
  rw [hstart, hrun]
  cases h : items ⟨Cursor.start R.tokens, [], []⟩ with
  | ok is s =>
    rw [h] at hsettled
    exact ⟨rfl, hsettled.errors⟩
  | error e s =>
    rw [h] at hsettled
    refine ⟨?_, (hsettled.1.record hsettled.2).errors⟩
    exact congrArg (Prod.mk []) (move_record R.place s e).symm

end ContractCompiler.Reformatting
