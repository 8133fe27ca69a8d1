import ContractCompiler.Compile

/-!
# Moving what has a place

Tokens, trees and errors hold places in a source text. `move f` puts each place where `f` says and leaves all else as it
is; `unplaced` forgets the places. Moving twice is moving once, so that what has been moved is still the same up to places.
-/

namespace ContractCompiler

/-- Something that may hold places, which can be moved. -/
class Movable (α : Type) where
  move : (Nat → Nat) → α → α
  move_move : ∀ (f g : Nat → Nat) (a : α), move g (move f a) = move (g ∘ f) a

export Movable (move move_move)

/-- The same without places: all of them are the start of the text. -/
def unplaced {α : Type} [Movable α] (a : α) : α := move (fun _ => 0) a

/-- Where the places are forgotten it makes no difference that they were moved before. -/
theorem unplaced_move {α : Type} [Movable α] (f : Nat → Nat) (a : α) : unplaced (move f a) = unplaced a :=
  move_move f (fun _ => 0) a

section Containers

variable {α β : Type}

/-- What holds no place. -/
@[reducible] def Movable.fixed : Movable α := ⟨fun _ a => a, fun _ _ _ => rfl⟩

instance : Movable Unit := .fixed
instance : Movable Bool := .fixed
instance : Movable TokenKind := .fixed
instance : Movable String := .fixed
instance : Movable Modifier := .fixed
instance : Movable Traversal := .fixed

instance [Movable α] : Movable (List α) where
  move f as := as.map (move f)
  move_move f g as := by simp [move_move, Function.comp_def]

/-- Modifiers hold no place. -/
theorem move_modifiers (f : Nat → Nat) (modifiers : List Modifier) : move f modifiers = modifiers := List.map_id modifiers

instance [Movable α] : Movable (Option α) where
  move f a := a.map (move f)
  move_move f g a := by simp [move_move, Function.comp_def]

instance [Movable α] [Movable β] : Movable (α × β) where
  move f p := (move f p.1, move f p.2)
  move_move f g p := by simp [move_move]

end Containers

/-! ## Trees -/

instance : Movable Span := ⟨fun f s => ⟨f s.start, f s.stop⟩, fun _ _ _ => rfl⟩

instance : Movable Ident := ⟨fun f i => ⟨i.name, move f i.span⟩, fun _ _ _ => rfl⟩

namespace TypeExpr

mutual

/-- The annotation with its places moved. -/
def moved (f : Nat → Nat) : TypeExpr → TypeExpr
  | .keyword span word => .keyword (move f span) word
  | .named span path args => .named (move f span) (move f path) (movedAll f args)
  | .array span elem => .array (move f span) (elem.moved f)
  | .union span types => .union (move f span) (movedAll f types)

/-- The annotations with their places moved. -/
def movedAll (f : Nat → Nat) : List TypeExpr → List TypeExpr
  | [] => []
  | t :: ts => t.moved f :: movedAll f ts

end

mutual

/-- An annotation moved twice is moved once by both. -/
theorem moved_moved (f g : Nat → Nat) (t : TypeExpr) : (t.moved f).moved g = t.moved (g ∘ f) := by
  cases t with
  | keyword => rfl
  | named => simp only [moved, move_move, movedAll_movedAll f g]
  | array _ elem => simp only [moved, move_move, moved_moved f g elem]
  | union => simp only [moved, move_move, movedAll_movedAll f g]

theorem movedAll_movedAll (f g : Nat → Nat) (ts : List TypeExpr) : movedAll g (movedAll f ts) = movedAll (g ∘ f) ts := by
  cases ts with
  | nil => rfl
  | cons t ts => simp only [movedAll, moved_moved f g t, movedAll_movedAll f g ts]

end

instance : Movable TypeExpr := ⟨moved, moved_moved⟩

/-- Several annotations are moved one by one. -/
theorem movedAll_eq (f : Nat → Nat) (ts : List TypeExpr) : movedAll f ts = move f ts := by
  induction ts with
  | nil => rfl
  | cons t ts ih => rw [movedAll, ih]; rfl

end TypeExpr

namespace Expr

mutual

/-- The expression with its places moved. -/
def moved (f : Nat → Nat) : Expr → Expr
  | .literal span value => .literal (move f span) value
  | .ident name => .ident (move f name)
  | .this span => .this (move f span)
  | .super span => .super (move f span)
  | .member span target name => .member (move f span) (target.moved f) (move f name)
  | .index span target key => .index (move f span) (target.moved f) (key.moved f)
  | .call span callee args => .call (move f span) (callee.moved f) (movedAll f args)
  | .binary span op left right => .binary (move f span) op (left.moved f) (right.moved f)
  | .unary span op operand => .unary (move f span) op (operand.moved f)
  | .update span op leading operand => .update (move f span) op leading (operand.moved f)
  | .conditional span test consequent alternate =>
    .conditional (move f span) (test.moved f) (consequent.moved f) (alternate.moved f)
  | .paren span inner => .paren (move f span) (inner.moved f)
  | .array span elements => .array (move f span) (movedAll f elements)
  | .object span fields => .object (move f span) (movedFields f fields)
  | .new span callee args => .new (move f span) (callee.moved f) (movedAll f args)
  | .asType span operand type => .asType (move f span) (operand.moved f) (move f type)
  | .satisfiesType span operand type => .satisfiesType (move f span) (operand.moved f) (move f type)
  | .nonNull span operand => .nonNull (move f span) (operand.moved f)
  | .optionalChain span link => .optionalChain (move f span) (link.moved f)

/-- The expressions with their places moved. -/
def movedAll (f : Nat → Nat) : List Expr → List Expr
  | [] => []
  | e :: es => e.moved f :: movedAll f es

/-- The entries of an object literal with their places moved. -/
def movedFields (f : Nat → Nat) : List (Field Expr) → List (Field Expr)
  | [] => []
  | ⟨key, value⟩ :: fields => ⟨move f key, value.moved f⟩ :: movedFields f fields

end

mutual

/-- An expression moved twice is moved once by both. -/
theorem moved_moved (f g : Nat → Nat) (e : Expr) : (e.moved f).moved g = e.moved (g ∘ f) := by
  cases e with
  | literal | ident | this | super => rfl
  | member _ target _ => simp only [moved, move_move, moved_moved f g target]
  | index _ target key => simp only [moved, move_move, moved_moved f g target, moved_moved f g key]
  | call _ callee args => simp only [moved, move_move, moved_moved f g callee, movedAll_movedAll f g args]
  | binary _ _ left right => simp only [moved, move_move, moved_moved f g left, moved_moved f g right]
  | unary _ _ e | update _ _ _ e | paren _ e | asType _ e _ | satisfiesType _ e _ | nonNull _ e | optionalChain _ e =>
    simp only [moved, move_move, moved_moved f g e]
  | conditional _ test consequent alternate =>
    simp only [moved, move_move, moved_moved f g test, moved_moved f g consequent, moved_moved f g alternate]
  | array _ elements => simp only [moved, move_move, movedAll_movedAll f g elements]
  | object _ fields => simp only [moved, move_move, movedFields_movedFields f g fields]
  | new _ callee args => simp only [moved, move_move, moved_moved f g callee, movedAll_movedAll f g args]

theorem movedAll_movedAll (f g : Nat → Nat) (es : List Expr) : movedAll g (movedAll f es) = movedAll (g ∘ f) es := by
  cases es with
  | nil => rfl
  | cons e es => simp only [movedAll, moved_moved f g e, movedAll_movedAll f g es]

theorem movedFields_movedFields (f g : Nat → Nat) (fields : List (Field Expr)) :
    movedFields g (movedFields f fields) = movedFields (g ∘ f) fields := by
  cases fields with
  | nil => rfl
  | cons field fields =>
    obtain ⟨key, value⟩ := field
    simp only [movedFields, move_move, moved_moved f g value, movedFields_movedFields f g fields]

end

instance : Movable Expr := ⟨moved, moved_moved⟩

end Expr

instance {α : Type} [Movable α] : Movable (Field α) where
  move f x := ⟨move f x.key, move f x.value⟩
  move_move f g x := by simp only [move_move]

namespace Expr

/-- Several expressions are moved one by one. -/
theorem movedAll_eq (f : Nat → Nat) (es : List Expr) : movedAll f es = move f es := by
  induction es with
  | nil => rfl
  | cons e es ih => rw [movedAll, ih]; rfl

/-- The entries of an object literal are moved one by one. -/
theorem movedFields_eq (f : Nat → Nat) (fields : List (Field Expr)) : movedFields f fields = move f fields := by
  induction fields with
  | nil => rfl
  | cons field fields ih => rw [movedFields, ih]; rfl

variable (f : Nat → Nat) (span : Span) (callee : Expr) (es : List Expr)

/-- Moving a call moves the callee and the arguments. -/
theorem move_call : move f (Expr.call span callee es) = .call (move f span) (move f callee) (move f es) := by
  rw [← movedAll_eq]
  rfl

/-- Moving a `new` moves the callee and the arguments. -/
theorem move_new : move f (Expr.new span callee es) = .new (move f span) (move f callee) (move f es) := by
  rw [← movedAll_eq]
  rfl

/-- Moving an array literal moves its elements. -/
theorem move_array : move f (Expr.array span es) = .array (move f span) (move f es) := by
  rw [← movedAll_eq]
  rfl

/-- Moving an object literal moves its entries. -/
theorem move_object (fields : List (Field Expr)) :
    move f (Expr.object span fields) = .object (move f span) (move f fields) := by
  rw [← movedFields_eq]
  rfl

/-- The span of a moved expression is the moved span. -/
theorem span_move (e : Expr) : (move f e).span = move f e.span := by
  cases e <;> rfl

end Expr

namespace TypeExpr

variable (f : Nat → Nat) (span : Span) (ts : List TypeExpr)

/-- Moving a type name moves its parts and its arguments. -/
theorem move_named (path : List Ident) :
    move f (TypeExpr.named span path ts) = .named (move f span) (move f path) (move f ts) := by
  rw [← movedAll_eq]
  rfl

/-- Moving a union moves its members. -/
theorem move_union : move f (TypeExpr.union span ts) = .union (move f span) (move f ts) := by
  rw [← movedAll_eq]
  rfl

/-- The span of a moved annotation is the moved span. -/
theorem span_move (t : TypeExpr) : (move f t).span = move f t.span := by
  cases t <;> rfl

end TypeExpr

instance : Movable Declarator where
  move f d := ⟨move f d.name, move f d.type, move f d.init, move f d.span⟩
  move_move f g d := by simp only [move_move]

namespace Stmt

mutual

/-- The statement with its places moved. -/
def moved (f : Nat → Nat) : Stmt → Stmt
  | .var span kind decls => .var (move f span) kind (move f decls)
  | .expr span e => .expr (move f span) (move f e)
  | .return_ span value => .return_ (move f span) (move f value)
  | .if_ span cond thenBranch elseBranch =>
    .if_ (move f span) (move f cond) (thenBranch.moved f) (movedOption f elseBranch)
  | .while_ span cond body => .while_ (move f span) (move f cond) (body.moved f)
  | .doWhile span body cond => .doWhile (move f span) (body.moved f) (move f cond)
  | .for_ span init test update body =>
    .for_ (move f span) (movedOption f init) (move f test) (move f update) (body.moved f)
  | .forEach span kind binding traversal iterable body =>
    .forEach (move f span) kind (move f binding) traversal (move f iterable) (body.moved f)
  | .break_ span => .break_ (move f span)
  | .continue_ span => .continue_ (move f span)
  | .throw span value => .throw (move f span) (move f value)
  | .block span stmts => .block (move f span) (movedAll f stmts)
  | .empty span => .empty (move f span)

/-- The optional statement with its places moved. -/
def movedOption (f : Nat → Nat) : Option Stmt → Option Stmt
  | none => none
  | some s => some (s.moved f)

/-- The statements with their places moved. -/
def movedAll (f : Nat → Nat) : List Stmt → List Stmt
  | [] => []
  | s :: ss => s.moved f :: movedAll f ss

end

mutual

/-- A statement moved twice is moved once by both. -/
theorem moved_moved (f g : Nat → Nat) (s : Stmt) : (s.moved f).moved g = s.moved (g ∘ f) := by
  cases s with
  | var | expr | return_ | break_ | continue_ | throw | empty => simp only [moved, move_move]
  | if_ _ _ thenBranch elseBranch =>
    simp only [moved, move_move, moved_moved f g thenBranch, movedOption_movedOption f g elseBranch]
  | while_ _ _ body | doWhile _ body _ | forEach _ _ _ _ _ body => simp only [moved, move_move, moved_moved f g body]
  | for_ _ init _ _ body =>
    simp only [moved, move_move, movedOption_movedOption f g init, moved_moved f g body]
  | block _ stmts => simp only [moved, move_move, movedAll_movedAll f g stmts]

theorem movedOption_movedOption (f g : Nat → Nat) (s : Option Stmt) :
    movedOption g (movedOption f s) = movedOption (g ∘ f) s := by
  cases s with
  | none => rfl
  | some s => simp only [movedOption, moved_moved f g s]

theorem movedAll_movedAll (f g : Nat → Nat) (ss : List Stmt) : movedAll g (movedAll f ss) = movedAll (g ∘ f) ss := by
  cases ss with
  | nil => rfl
  | cons s ss => simp only [movedAll, moved_moved f g s, movedAll_movedAll f g ss]

end

instance : Movable Stmt := ⟨moved, moved_moved⟩

/-- An optional statement is moved as any optional thing is. -/
theorem movedOption_eq (f : Nat → Nat) (s : Option Stmt) : movedOption f s = move f s := by
  cases s <;> rfl

/-- Several statements are moved one by one. -/
theorem movedAll_eq (f : Nat → Nat) (ss : List Stmt) : movedAll f ss = move f ss := by
  induction ss with
  | nil => rfl
  | cons s ss ih => rw [movedAll, ih]; rfl

variable (f : Nat → Nat) (span : Span)

/-- Moving an `if` moves its condition and its branches. -/
theorem move_if (cond : Expr) (thenBranch : Stmt) (elseBranch : Option Stmt) :
    move f (Stmt.if_ span cond thenBranch elseBranch) =
      .if_ (move f span) (move f cond) (move f thenBranch) (move f elseBranch) := by
  rw [← movedOption_eq]
  rfl

/-- Moving a `for` moves its header and its body. -/
theorem move_for (init : Option Stmt) (test update : Option Expr) (body : Stmt) :
    move f (Stmt.for_ span init test update body) =
      .for_ (move f span) (move f init) (move f test) (move f update) (move f body) := by
  rw [← movedOption_eq]
  rfl

/-- Moving a block moves its statements. -/
theorem move_block (ss : List Stmt) : move f (Stmt.block span ss) = .block (move f span) (move f ss) := by
  rw [← movedAll_eq]
  rfl

end Stmt

instance : Movable Block where
  move f b := ⟨move f b.stmts, move f b.span⟩
  move_move f g b := by simp only [move_move]

instance : Movable Decorator where
  move f d := ⟨move f d.name, move f d.args, move f d.span⟩
  move_move f g d := by simp only [move_move]

instance : Movable Param where
  move f p := ⟨move f p.name, move f p.type, p.optional, move f p.default, p.modifiers, move f p.span⟩
  move_move f g p := by simp only [move_move]

instance : Movable MemberShape where
  move f
    | .property name type init => .property (move f name) (move f type) (move f init)
    | .constructor params body => .constructor (move f params) (move f body)
    | .method name params returns body => .method (move f name) (move f params) (move f returns) (move f body)
    | .accessor kind name params returns body =>
      .accessor kind (move f name) (move f params) (move f returns) (move f body)
    | .indexSignature key keyType valueType => .indexSignature (move f key) (move f keyType) (move f valueType)
  move_move f g shape := by cases shape <;> simp only [move_move]

instance : Movable Member where
  move f m := ⟨move f m.decorators, m.modifiers, move f m.shape, move f m.span⟩
  move_move f g m := by simp only [move_move]

instance : Movable ClassDecl where
  move f c := ⟨move f c.name, move f c.base, move f c.decorators, c.isAbstract, move f c.members, move f c.span⟩
  move_move f g c := by simp only [move_move]

instance : Movable ImportSpecifier where
  move f i := ⟨move f i.imported, move f i.localName⟩
  move_move f g i := by simp only [move_move]

instance : Movable Import where
  move f i := ⟨move f i.default, move f i.wholeModule, move f i.named, i.source⟩
  move_move f g i := by simp only [move_move]

instance : Movable ItemShape where
  move f
    | .import_ decl => .import_ (move f decl)
    | .class_ decl => .class_ (move f decl)
    | .other => .other
  move_move f g shape := by cases shape <;> simp only [move_move]

instance : Movable Item where
  move f i := ⟨i.exported, move f i.shape, move f i.span⟩
  move_move f g i := by simp only [move_move]

instance : Movable SourceFile where
  move f file := ⟨move f file.items⟩
  move_move f g file := by simp only [move_move]

/-! ## Tokens and parser states -/

instance : Movable Token := ⟨fun f t => ⟨t.kind, move f t.span, t.afterBreak⟩, fun _ _ _ => rfl⟩

instance : Movable ParseError := ⟨fun f e => ⟨e.fault, move f e.span⟩, fun _ _ _ => rfl⟩

instance : Movable Cursor where
  move f c := ⟨move f c.behind, move f c.here, move f c.ahead⟩
  move_move f g c := by simp only [move_move]

instance : Movable ParserState where
  move f s := ⟨move f s.toCursor, move f s.errors, s.journal⟩
  move_move f g s := by simp only [move_move]

/-! ## Failures -/

instance : Movable RenderError where
  move f
    | .missingType name span => .missingType name (move f span)
    | .missingInit name span => .missingInit name (move f span)
    | .unknownType type span => .unknownType type (move f span)
    | .unknownIntrinsic receiver member span => .unknownIntrinsic receiver member (move f span)
  move_move f g e := by cases e <;> simp only [move_move]

instance : Movable CompileError where
  move f
    | .render className error => .render className (move f error)
    | .emit contract reason => .emit contract reason
  move_move f g e := by cases e <;> simp only [move_move]

instance : Movable Access := ⟨fun f a => ⟨a.receiver, a.member, move f a.span⟩, fun _ _ _ => rfl⟩

end ContractCompiler
