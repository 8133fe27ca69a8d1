import ContractCompiler.Proofs.Reading.Spelling

/-!
# Precedence in the tree

The tree of a source text respects the precedence of its operators, whether or not the text has errors: an operand that is
looser than its place allows is never there without the parentheses around it. `Expr.fits` says it of one node, by the kinds
of its operands; the levels of binary operators go from 0, the loosest, to 10.
-/

namespace ContractCompiler

/-- The level of a binary operator. Powers and assignments have none. -/
def BinaryOp.level? (op : BinaryOp) : Option Nat := op.tier?.map Tier.rank

namespace Expr

/-- The expression holds together at least as tightly as binary operators of the level `k`: it is no conditional and no
assignment, and if it is a binary operation or a type operator (which has the level 7), its level is no less. -/
def holdsFrom (k : Nat) : Expr → Bool
  | .binary _ op _ _ =>
    match op.level? with
    | some level => k ≤ level
    | none => op = .exp
  | .asType .. | .satisfiesType .. => k ≤ 7
  | .conditional .. => false
  | _ => true

/-- The expression may stand behind a prefix operator: it is no binary operation, type operator or conditional. -/
def isPrefixable : Expr → Bool
  | .binary .. | .asType .. | .satisfiesType .. | .conditional .. => false
  | _ => true

/-- The expression may stand in front of a suffix: nor is it a prefix operator or an update. -/
def isSuffixable : Expr → Bool
  | .unary .. | .update .. => false
  | e => e.isPrefixable

/-- No operand of the node is looser than its place allows. -/
def fits : Expr → Bool
  | .binary _ op left right =>
    match op.level? with
    | some k => left.holdsFrom k && right.holdsFrom (k + 1)
    | none => if op = .exp then left.isPrefixable && right.holdsFrom 11 else left.holdsFrom 0
  | .conditional _ test _ _ => test.holdsFrom 0
  | .asType _ e _ | .satisfiesType _ e _ => e.holdsFrom 7
  | .unary _ _ e | .update _ _ true e => e.isPrefixable
  | .update _ _ false e | .nonNull _ e | .member _ e _ | .index _ e _ | .call _ e _ => e.isSuffixable
  | .optionalChain _ link => link.isLink
  | .new _ callee _ => callee.isCallee
  | .literal .. | .ident _ | .this _ | .super _ | .paren .. | .array .. | .object .. => true

/-! ## Kinds and ranks -/

variable {e : Expr}

/-- Up to the level of powers, which comes after those of the binary operators, the levels are the ranks. -/
theorem holdsFrom_iff {k : Nat} (hk : k ≤ 11) : e.holdsFrom k = true ↔ k < e.rank.toNat := by
  cases e with
  | binary span op left right =>
    simp only [holdsFrom, rank, BinaryOp.level?]
    cases op.tier? with
    | some t =>
      simp only [Rank.toNat_tier, Option.map_some, decide_eq_true_eq]
      omega
    | none =>
      by_cases hexp : op = .exp
      · simp [hexp, Rank.toNat, Nat.lt_succ_iff, hk]
      · simp [hexp, Rank.toNat]
  | asType | satisfiesType => simp [holdsFrom, rank, Rank.toNat_tier, Tier.rank, Nat.lt_succ_iff]
  | conditional => simp [holdsFrom, rank, Rank.toNat]
  | _ =>
    simp only [holdsFrom, rank, Rank.toNat, true_iff]
    omega

/-- Behind a prefix operator stands what holds together as tightly as one. -/
theorem isPrefixable_iff : e.isPrefixable = true ↔ .unary ≤ e.rank := by
  cases e with
  | binary span op left right =>
    simp only [isPrefixable, rank, Rank.le_iff]
    cases op.tier? with
    | some t =>
      have := t.rank_le
      simp [Rank.toNat]
      omega
    | none => by_cases hexp : op = .exp <;> simp [hexp, Rank.toNat]
  | _ => simp [isPrefixable, rank, Rank.le_iff, Rank.toNat, Tier.rank]

/-- In front of a suffix stands what holds together as tightly as one. -/
theorem isSuffixable_of_rank (h : .suffixed ≤ e.rank) : e.isSuffixable = true := by
  have hloose : e.isPrefixable = true := isPrefixable_iff.mpr (Nat.le_of_succ_le h)
  cases e with
  | unary | update => simp [rank, Rank.le_iff, Rank.toNat] at h
  | _ => exact hloose

/-- In a leveled expression the operands of the outermost node fit. -/
theorem Leveled.fits (h : e.Leveled) : e.fits = true := by
  cases h with
  | literal | ident | this | super | paren | array | object => rfl
  | member _ hr | index _ hr | call _ hr | trailing _ hr | nonNull _ hr => exact isSuffixable_of_rank hr
  | @operation span op t left right htier _ hl _ hr =>
    have hrank := t.rank_le
    have hlevel : op.level? = some t.rank := by rw [BinaryOp.level?, htier]; rfl
    simp only [Expr.fits, hlevel, Bool.and_eq_true]
    exact ⟨(holdsFrom_iff (by omega)).mpr hl, (holdsFrom_iff (by omega)).mpr hr⟩
  | power _ hl _ hr =>
    have hleft := isPrefixable_iff.mpr hl
    have hright := (holdsFrom_iff (Nat.le_refl 11)).mpr hr
    simp [Expr.fits, BinaryOp.level?, BinaryOp.tier?, hleft, hright]
  | @assignment span op left right hop _ hl _ =>
    have hleft := (holdsFrom_iff (Nat.zero_le 11)).mpr hl
    cases op <;> first | exact hleft | cases hop
  | unary _ hr | leading _ hr => exact isPrefixable_iff.mpr hr
  | conditional _ hr => exact (holdsFrom_iff (Nat.zero_le 11)).mpr hr
  | asType _ hr | satisfiesType _ hr => exact (holdsFrom_iff (by omega)).mpr hr
  | new _ hcallee => exact hcallee
  | optionalChain _ hlink => exact hlink

end Expr

/-- Every tree respects precedence: whatever the source text, no operand of any expression in its tree is looser than its
place allows. -/
theorem fits_of_mem_parse (source : String) : ∀ x ∈ (parse source).file.exprs.flatMap Expr.subexprs, x.fits = true :=
  fun _ hx => (spelled_parse hx).2.fits

/-- In the tree of a class that is not closed, the operands of a difference fit. -/
theorem fits_in_unclosed_class :
    ∃ x ∈ (parse "class A\x7bx=a-b*-c.d").file.exprs.flatMap Expr.subexprs,
      x.kindName = "Binary" ∧ x.span = ⟨10, 18⟩ ∧ x.fits = true := by
  have hany : ((parse "class A\x7bx=a-b*-c.d").file.exprs.flatMap Expr.subexprs).any
      (fun x => x.kindName == "Binary" && x.span == ⟨10, 18⟩) = true := by decide +kernel
  obtain ⟨x, hx, hshape⟩ := List.any_eq_true.mp hany
  simp only [Bool.and_eq_true, beq_iff_eq] at hshape
  exact ⟨x, hx, hshape.1, hshape.2, fits_of_mem_parse _ x hx⟩

end ContractCompiler
