import ContractCompiler.Proofs.Leveled
import ContractCompiler.Token.Word

/-!
# Writing expressions as tokens

`Expr.print` writes an expression as the kinds of its tokens, with no parentheses of its own: an expression that was
built without regard to ranks may read back as another one. `Expr.erase` takes the spans off an expression, so that two
of them can be compared wherever they were read. What is printed starts with a token that opens an expression.
-/

namespace ContractCompiler

/-! ## Without spans -/

/-- A name without its span. -/
def Ident.erase (i : Ident) : Ident := ⟨i.name, ⟨0, 0⟩⟩

namespace TypeExpr

mutual

/-- An annotation without its spans. -/
def erase : TypeExpr → TypeExpr
  | .keyword _ word => .keyword ⟨0, 0⟩ word
  | .named _ path args => .named ⟨0, 0⟩ (path.map Ident.erase) (eraseAll args)
  | .array _ elem => .array ⟨0, 0⟩ elem.erase
  | .union _ types => .union ⟨0, 0⟩ (eraseAll types)

/-- Several annotations without their spans. -/
def eraseAll : List TypeExpr → List TypeExpr
  | [] => []
  | t :: ts => t.erase :: eraseAll ts

end

end TypeExpr

namespace Expr

mutual

/-- An expression without its spans. -/
@[simp]
def erase : Expr → Expr
  | .literal _ value => .literal ⟨0, 0⟩ value
  | .ident name => .ident name.erase
  | .this _ => .this ⟨0, 0⟩
  | .super _ => .super ⟨0, 0⟩
  | .member _ target name => .member ⟨0, 0⟩ target.erase name.erase
  | .index _ target key => .index ⟨0, 0⟩ target.erase key.erase
  | .call _ callee args => .call ⟨0, 0⟩ callee.erase (eraseAll args)
  | .binary _ op left right => .binary ⟨0, 0⟩ op left.erase right.erase
  | .unary _ op e => .unary ⟨0, 0⟩ op e.erase
  | .update _ op leading e => .update ⟨0, 0⟩ op leading e.erase
  | .conditional _ test consequent alternate =>
    .conditional ⟨0, 0⟩ test.erase consequent.erase alternate.erase
  | .paren _ e => .paren ⟨0, 0⟩ e.erase
  | .array _ elements => .array ⟨0, 0⟩ (eraseAll elements)
  | .object _ fields => .object ⟨0, 0⟩ (eraseFields fields)
  | .new _ callee args => .new ⟨0, 0⟩ callee.erase (eraseAll args)
  | .asType _ e type => .asType ⟨0, 0⟩ e.erase type.erase
  | .satisfiesType _ e type => .satisfiesType ⟨0, 0⟩ e.erase type.erase
  | .nonNull _ e => .nonNull ⟨0, 0⟩ e.erase
  | .optionalChain _ link => .optionalChain ⟨0, 0⟩ link.erase

/-- Several expressions without their spans. -/
def eraseAll : List Expr → List Expr
  | [] => []
  | e :: es => e.erase :: eraseAll es

/-- The entries of an object literal without their spans. -/
def eraseFields : List (Field Expr) → List (Field Expr)
  | [] => []
  | ⟨key, e⟩ :: fields => ⟨key.erase, e.erase⟩ :: eraseFields fields

end

/-- An entry of an object literal without its spans. -/
def eraseField (f : Field Expr) : Field Expr := ⟨f.key.erase, f.value.erase⟩

/-- Several expressions lose their spans one by one. -/
theorem eraseAll_eq_map (es : List Expr) : eraseAll es = es.map erase := by
  induction es with
  | nil => rfl
  | cons e es ih => rw [eraseAll, ih, List.map_cons]

theorem eraseFields_eq_map (fields : List (Field Expr)) : eraseFields fields = fields.map eraseField := by
  induction fields with
  | nil => rfl
  | cons f fields ih => rw [eraseFields, ih, List.map_cons, eraseField]

end Expr

/-! ## Tokens of an expression -/

/-- The kind of the token that spells a literal. -/
def Literal.kind : Literal → TokenKind
  | .number text => .number text
  | .string value => .string value
  | .bool true => .keyword .true_
  | .bool false => .keyword .false_
  | .null => .keyword .null
  | .undefined => .keyword .undefined
  | .template text => .template text

/-- The kind of the token that spells a prefix operator. -/
def UnaryOp.kind : UnaryOp → TokenKind
  | .not => .mark .bang
  | .neg => .mark .minus
  | .plus => .mark .plus
  | .bitNot => .mark .tilde
  | .typeof => .keyword .typeof
  | .void => .keyword .void
  | .delete => .keyword .delete

/-- The kind of the token that spells an update. -/
def UpdateOp.kind : UpdateOp → TokenKind
  | .increment => .mark .plusPlus
  | .decrement => .mark .minusMinus

namespace TokenKind

/-- The kind of the token that a word is, private names included. -/
def ofWord (name : String) : TokenKind :=
  if isPrivateName name then .privateName name
  else match Keyword.ofSpelling? name with
    | some word => .keyword word
    | none => .ident name

/-- The kind of the token that a key of an object literal is: a word where it can be one, and a quoted string
otherwise. -/
def ofKey (name : String) : TokenKind :=
  if (bareName name).toList.head?.any Token.isWordStart && (bareName name).toList.all Token.isWordPart then ofWord name
  else .string name

/-- Several texts with commas between them. -/
def commas : List (List TokenKind) → List TokenKind
  | [] => []
  | [kinds] => kinds
  | kinds :: rest => kinds ++ .mark .comma :: commas rest

/-- Every word may name a member. -/
theorem memberName?_ofWord (name : String) : (ofWord name).memberName? = some name := by
  unfold ofWord
  split
  · rfl
  · split
    · rename_i word hword
      exact congrArg some (Keyword.ofSpelling?_eq_some_iff.mp hword)
    · rfl

/-- Every key may be declared. -/
theorem declaredName?_ofKey (name : String) : (ofKey name).declaredName? = some name := by
  unfold ofKey
  split
  · have h := memberName?_ofWord name
    unfold declaredName?
    split
    · rename_i hk
      rw [hk] at h
      cases h
    · exact h
  · rfl

end TokenKind

namespace Expr

mutual

/-- The kinds of the tokens of an expression. The types of assertions are left out. -/
@[simp]
def print : Expr → List TokenKind
  | .literal _ value => [value.kind]
  | .ident name => [.ofWord name.name]
  | .this _ => [.keyword .this]
  | .super _ => [.keyword .super]
  | .member _ target name => target.print ++ [.mark .dot, .ofWord name.name]
  | .index _ target key => target.print ++ .mark .lbracket :: (key.print ++ [.mark .rbracket])
  | .call _ callee args => callee.print ++ .mark .lparen :: (TokenKind.commas (printAll args) ++ [.mark .rparen])
  | .binary _ op left right => left.print ++ (op.kinds ++ right.print)
  | .unary _ op e => op.kind :: e.print
  | .update _ op true e => op.kind :: e.print
  | .update _ op false e => e.print ++ [op.kind]
  | .conditional _ test consequent alternate =>
    test.print ++ .mark .question :: (consequent.print ++ .mark .colon :: alternate.print)
  | .paren _ e => .mark .lparen :: (e.print ++ [.mark .rparen])
  | .array _ elements => .mark .lbracket :: (TokenKind.commas (printAll elements) ++ [.mark .rbracket])
  | .object _ fields => .mark .lbrace :: (TokenKind.commas (printFields fields) ++ [.mark .rbrace])
  | .new _ callee args =>
    .keyword .new :: (callee.print ++ .mark .lparen :: (TokenKind.commas (printAll args) ++ [.mark .rparen]))
  | .asType _ e _ | .satisfiesType _ e _ => e.print
  | .nonNull _ e => e.print ++ [.mark .bang]
  | .optionalChain _ (.member _ target name) => target.print ++ [.mark .questionDot, .ofWord name.name]
  | .optionalChain _ (.index _ target key) =>
    target.print ++ .mark .questionDot :: .mark .lbracket :: (key.print ++ [.mark .rbracket])
  | .optionalChain _ (.call _ callee args) =>
    callee.print ++
      .mark .questionDot :: .mark .lparen :: (TokenKind.commas (printAll args) ++ [.mark .rparen])
  | .optionalChain _ link => link.print

/-- The kinds of the tokens of several expressions. -/
def printAll : List Expr → List (List TokenKind)
  | [] => []
  | e :: es => e.print :: printAll es

/-- The kinds of the tokens of the entries of an object literal. -/
def printFields : List (Field Expr) → List (List TokenKind)
  | [] => []
  | ⟨key, e⟩ :: fields => (.ofKey key.name :: .mark .colon :: e.print) :: printFields fields

end

/-- The kinds of the tokens of an entry of an object literal. -/
def printField (f : Field Expr) : List TokenKind := .ofKey f.key.name :: .mark .colon :: f.value.print

/-- Several expressions are written one by one. -/
theorem printAll_eq_map (es : List Expr) : printAll es = es.map print := by
  induction es with
  | nil => rfl
  | cons e es ih => rw [printAll, ih, List.map_cons]

theorem printFields_eq_map (fields : List (Field Expr)) : printFields fields = fields.map printField := by
  induction fields with
  | nil => rfl
  | cons f fields ih => rw [printFields, ih, List.map_cons, printField]

/-- Whether a node by itself can be written: it is no type assertion, and a name may stand as an expression. -/
def isPrintable : Expr → Bool
  | .asType .. | .satisfiesType .. => false
  | .ident name => (TokenKind.ofWord name.name).bindingName? == some name.name
  | _ => true

/-- Everything in the expression can be written. -/
def Printable (e : Expr) : Prop := ∀ x ∈ e.subexprs, x.isPrintable = true

instance (e : Expr) : Decidable e.Printable := inferInstanceAs (Decidable (∀ x ∈ e.subexprs, x.isPrintable = true))

namespace Printable

variable {e : Expr}

/-- What can be written can be written itself. -/
theorem self (h : e.Printable) : e.isPrintable = true := (forall_subexprs_iff.mp h).1

/-- So can what stands in it. -/
theorem child (h : e.Printable) {c : Expr} (hc : c ∈ e.children) : c.Printable := (forall_subexprs_iff.mp h).2 c hc

end Printable

end Expr

/-! ## What opens an expression -/

/-- Operations of a tier are looser than anything with a suffix. -/
theorem Rank.tier_lt_suffixed (t : Tier) : Rank.tier t < .suffixed := by
  cases t <;> decide

namespace TokenKind

/-- Whether a primary expression may start with a token of this kind. -/
def opensPrimary (k : TokenKind) : Bool :=
  k.literal?.isSome || k.bindingName?.isSome ||
    [.keyword .this, .keyword .super, .keyword .new, .mark .lparen, .mark .lbracket, .mark .lbrace].contains k

/-- Whether an expression may start with a token of this kind. -/
def opensExpr (k : TokenKind) : Bool := k.opensPrimary || k.unaryOp?.isSome || k.updateOp?.isSome

/-- What starts a primary expression starts an expression. -/
theorem opensExpr_of_opensPrimary {k : TokenKind} (h : k.opensPrimary = true) : k.opensExpr = true := by
  simp [opensExpr, h]

/-- What starts a primary expression is no prefix operator. -/
theorem unaryOp?_of_opensPrimary {k : TokenKind} (h : k.opensPrimary = true) : k.unaryOp? = none := by
  unfold unaryOp?
  split <;> first | rfl | cases h

theorem updateOp?_of_opensPrimary {k : TokenKind} (h : k.opensPrimary = true) : k.updateOp? = none := by
  unfold updateOp?
  split <;> first | rfl | cases h

/-- A name starts a primary expression. -/
theorem opensPrimary_of_bindingName? {k : TokenKind} {name : String} (h : k.bindingName? = some name) :
    k.opensPrimary = true := by
  simp [opensPrimary, h]

/-- A name is no literal. -/
theorem literal?_of_bindingName? {k : TokenKind} {name : String} (h : k.bindingName? = some name) :
    k.literal? = none := by
  unfold literal?
  split <;> first | rfl | cases h

end TokenKind

/-- A literal is read back from its token. -/
theorem Literal.literal?_kind (value : Literal) : value.kind.literal? = some value := by
  cases value with
  | bool b => cases b <;> rfl
  | _ => rfl

/-- A prefix operator is read back from its token. -/
theorem UnaryOp.unaryOp?_kind (op : UnaryOp) : op.kind.unaryOp? = some op := by
  cases op <;> rfl

/-- An update is read back from its token. -/
theorem UpdateOp.updateOp?_kind (op : UpdateOp) : op.kind.updateOp? = some op := by
  cases op <;> rfl

/-- An update is no other prefix operator. -/
theorem UpdateOp.unaryOp?_kind (op : UpdateOp) : op.kind.unaryOp? = none := by
  cases op <;> rfl

namespace Expr

/-- The text starts as an expression may, and as a primary expression may if `primary` says so. -/
def Opening (kinds : List TokenKind) (primary : Prop) : Prop :=
  ∃ k, kinds.head? = some k ∧ k.opensExpr = true ∧ (primary → k.opensPrimary = true)

/-- A text starts as it did with more tokens behind it. -/
theorem Opening.append {ks : List TokenKind} {P Q : Prop} (h : Opening ks P) (ls : List TokenKind) (hQ : Q → P) :
    Opening (ks ++ ls) Q := by
  obtain ⟨k, hk, hopens, hprimary⟩ := h
  exact ⟨k, by rw [List.head?_append, hk, Option.some_or], hopens, hprimary ∘ hQ⟩

/-- A token that starts a primary expression starts whatever is asked for. -/
theorem Opening.of_primary {k : TokenKind} (h : k.opensPrimary = true) (ks : List TokenKind) (P : Prop) :
    Opening (k :: ks) P := ⟨k, rfl, TokenKind.opensExpr_of_opensPrimary h, fun _ => h⟩

/-- An operator starts an expression that is no primary one. -/
theorem Opening.of_op {k : TokenKind} (h : k.unaryOp?.isSome = true ∨ k.updateOp?.isSome = true) (ks : List TokenKind)
    {P : Prop} (hP : ¬ P) : Opening (k :: ks) P := by
  refine ⟨k, rfl, ?_, fun h => absurd h hP⟩
  rcases h with h | h <;> simp [TokenKind.opensExpr, h]

/-- What is said of the links alone holds of every other expression. -/
theorem not_isLink {e : Expr} {P : Span → Prop} (h : e.isLink = false) : ∀ span, e.isLink = true → P span :=
  fun _ hlink => absurd (h.symm.trans hlink) Bool.false_ne_true

/-- Both an expression and the optional form of it, if it is a link, start as an expression may. -/
theorem Leveled.openings {e : Expr} (he : e.Leveled) : e.Printable →
    Opening e.print (.suffixed ≤ e.rank) ∧
      ∀ span, e.isLink = true → Opening (Expr.optionalChain span e).print (.suffixed ≤ Rank.suffixed) := by
  have loose : ∀ {r : Rank} {P : Prop}, r < .suffixed → .suffixed ≤ r → P := by
    intro r P hlt hle
    exact absurd hlt (Nat.not_lt.mpr hle)
  induction he with
  | literal span value =>
    intro _
    refine ⟨.of_primary ?_ _ _, not_isLink rfl⟩
    simp [TokenKind.opensPrimary, Literal.literal?_kind]
  | ident name =>
    intro hprint
    exact ⟨.of_primary (TokenKind.opensPrimary_of_bindingName? (eq_of_beq hprint.self)) _ _, not_isLink rfl⟩
  | this | super | paren | array | object | new => exact fun _ => ⟨.of_primary rfl _ _, not_isLink rfl⟩
  | member _ hrank ih =>
    intro hprint
    have h := (ih (hprint.child (by simp [children]))).1
    exact ⟨h.append _ fun _ => hrank, fun _ _ => h.append _ fun _ => hrank⟩
  | index _ hrank _ ih _ =>
    intro hprint
    have h := (ih (hprint.child (by simp [children]))).1
    exact ⟨h.append _ fun _ => hrank, fun _ _ => h.append _ fun _ => hrank⟩
  | call _ hrank _ ih _ =>
    intro hprint
    have h := (ih (hprint.child (by simp [children]))).1
    exact ⟨h.append _ fun _ => hrank, fun _ _ => h.append _ fun _ => hrank⟩
  | operation htier _ _ _ _ ih _ =>
    intro hprint
    refine ⟨(ih (hprint.child (by simp [children]))).1.append _ ?_, not_isLink rfl⟩
    rw [rank_of_tier htier]
    exact loose (Rank.tier_lt_suffixed _)
  | power _ _ _ _ ih _ =>
    intro hprint
    exact ⟨(ih (hprint.child (by simp [children]))).1.append _ (loose (r := .power) (by decide)), not_isLink rfl⟩
  | assignment hop _ _ _ ih _ =>
    intro hprint
    refine ⟨(ih (hprint.child (by simp [children]))).1.append _ ?_, not_isLink rfl⟩
    rw [rank_of_isAssignment hop]
    exact loose (by decide)
  | unary => exact fun _ => ⟨.of_op (.inl (by rw [UnaryOp.unaryOp?_kind]; rfl)) _ (loose (r := .unary) (by decide)), not_isLink rfl⟩
  | leading => exact fun _ => ⟨.of_op (.inr (by rw [UpdateOp.updateOp?_kind]; rfl)) _ (loose (r := .unary) (by decide)), not_isLink rfl⟩
  | trailing _ _ ih =>
    intro hprint
    exact ⟨(ih (hprint.child (by simp [children]))).1.append _ (loose (r := .unary) (by decide)), not_isLink rfl⟩
  | asType | satisfiesType => exact fun hprint => absurd hprint.self Bool.false_ne_true
  | conditional _ _ _ _ ih _ _ =>
    intro hprint
    exact ⟨(ih (hprint.child (by simp [children]))).1.append _ (loose (r := .assignment) (by decide)), not_isLink rfl⟩
  | nonNull _ hrank ih =>
    intro hprint
    exact ⟨(ih (hprint.child (by simp [children]))).1.append _ fun _ => hrank, not_isLink rfl⟩
  | optionalChain _ hlink ih =>
    intro hprint
    exact ⟨(ih (hprint.child (by simp [children]))).2 _ hlink, not_isLink rfl⟩

/-- An expression that can be written starts with a token that opens one. -/
theorem Leveled.opening {e : Expr} (he : e.Leveled) (hprint : e.Printable) :
    Opening e.print (.suffixed ≤ e.rank) := (he.openings hprint).1

end Expr

end ContractCompiler
