import ContractCompiler.Proofs.Contract.Rendered
import ContractCompiler.Proofs.Tree.Equality

/-!
# Which expressions keep their grouping

An expression is written with no parentheses of its own, so its text groups as the levels of Solidity say, and not as the
tiers say by which it was read. The two orders differ in one place: the bitwise operators are looser than comparison and
equality in the source and tighter in Solidity. So an expression keeps its grouping exactly when no comparison is, without
parentheses, an operand of a bitwise operator.
-/

namespace ContractCompiler

open Token Solidity

/-- Whether the operators of a tier work on bits. -/
def Tier.isBitwise : Tier → Bool
  | .bitOr | .bitXor | .bitAnd => true
  | _ => false

/-- Whether the operators of a tier compare. -/
def Tier.compares : Tier → Bool
  | .equality | .relational => true
  | _ => false

/-- The tier of the operators that are written as `o`. Assignments have none. -/
def Solidity.Operator.tier? : Operator → Option Tier
  | .assign | .subAssign => none
  | .or => some .or
  | .and => some .and
  | .eq | .notEq => some .equality
  | .lt | .gt | .le | .ge => some .relational
  | .bitOr => some .bitOr
  | .bitXor => some .bitXor
  | .bitAnd => some .bitAnd
  | .add | .sub => some .additive

/-- An operator and what it is written as have the same tier. -/
theorem BinaryOp.tier?_of_operator? {op : BinaryOp} {o : Operator} (h : op.operator? = some o) : op.tier? = o.tier? := by
  cases op <;> cases h <;> rfl

namespace Solidity.Operator

variable {o o' : Operator} {t t' : Tier}

/-- What has no tier is an assignment, the loosest of all. -/
theorem level_of_tier?_eq_none (h : o.tier? = none) : o.level = 0 := by
  cases o <;> first | rfl | cases h

/-- An operator with a tier is tighter than an assignment. -/
theorem level_pos_of_tier? (h : o.tier? = some t) : 0 < o.level := by
  cases o <;> first | decide | cases h

/-- An operand that was at least as tight as `o` in the source is not split by it, unless a comparison stands on the left
of a bitwise operator. -/
theorem not_takes_iff (ht : o.tier? = some t) (ht' : o'.tier? = some t') (h : t.rank ≤ t'.rank) :
    ¬ o.Takes o' ↔ (t.isBitwise && t'.compares) = false := by
  cases o <;> cases ht <;> cases o' <;> cases ht' <;> revert h <;> decide

/-- Of two operators the one of the tighter tier takes the operand between them, unless it compares and the other works on
bits. -/
theorem takes_iff (ht : o.tier? = some t) (ht' : o'.tier? = some t') (h : t.rank < t'.rank) :
    o'.Takes o ↔ (t.isBitwise && t'.compares) = false := by
  cases o <;> cases ht <;> cases o' <;> cases ht' <;> revert h <;> decide

end Solidity.Operator

namespace Expr

variable {b : Bindings} {e : Expr}

/-- Whether an expression is a comparison that no parentheses enclose. -/
def compares : Expr → Bool
  | .binary _ op _ _ => op.tier?.any Tier.compares
  | _ => false

/-- Whether an expression is a bitwise operation with a comparison as an operand. -/
def mixes : Expr → Bool
  | .binary _ op left right => op.tier?.any Tier.isBitwise && (left.compares || right.compares)
  | _ => false

/-- No comparison in the expression is, without parentheses, an operand of a bitwise operator. -/
def Unmixed (e : Expr) : Prop := ∀ x ∈ e.subexprs, x.mixes = false

instance (e : Expr) : Decidable e.Unmixed := inferInstanceAs (Decidable (∀ x ∈ e.subexprs, x.mixes = false))

/-- Nothing is mixed in an expression just if it mixes nothing itself and nothing is mixed in its operands. -/
theorem unmixed_iff (e : Expr) : e.Unmixed ↔ e.mixes = false ∧ ∀ c ∈ e.children, c.Unmixed := forall_subexprs_iff

/-- An expression is no operation, an assignment, or an operation of some tier, and its term is of the same kind. -/
theorem term_cases (hplain : e.Plain b) :
    (e.term.operator? = none ∧ e.compares = false) ∨
    (∃ o, e.term.operator? = some o ∧ o.tier? = none ∧ e.rank = .assignment) ∨
    ∃ o t, e.term.operator? = some o ∧ o.tier? = some t ∧ e.rank = .tier t ∧ e.compares = t.compares := by
  cases e with
  | binary span op left right =>
    obtain ⟨o, ho⟩ := exists_operator hplain.self
    have htier := BinaryOp.tier?_of_operator? ho
    have hoperator : (Expr.binary span op left right).term.operator? = some o := by rw [term, ho]; rfl
    cases ht : o.tier? with
    | none =>
      have hassign : op.isAssignment = true := by cases op <;> cases ho <;> first | rfl | cases ht
      exact .inr (.inl ⟨o, hoperator, ht, rank_of_isAssignment hassign span left right⟩)
    | some t =>
      rw [ht] at htier
      refine .inr (.inr ⟨o, t, hoperator, ht, rank_of_tier htier span left right, ?_⟩)
      rw [compares, htier, Option.any_some]
  | _ => exact .inl ⟨rfl, rfl⟩

/-- An operand that a suffix may follow is no operation. -/
theorem operator?_of_suffixed (hplain : e.Plain b) (h : .suffixed ≤ e.rank) : e.term.operator? = none := by
  rcases term_cases hplain with ⟨hnone, -⟩ | ⟨o, -, -, hrank⟩ | ⟨o, t, -, -, hrank, -⟩
  · exact hnone
  · rw [hrank] at h
    exact absurd h (by decide)
  · rw [hrank] at h
    exact absurd h (Nat.not_le.mpr (Rank.tier_lt_suffixed t))

/-- The term of an expression fits on the left of an operator, unless a comparison would stand next to one that works on bits.
-/
theorem fitsLeft_iff (hplain : e.Plain b) {o : Operator} {t : Tier} (ht : o.tier? = some t) (h : .tier t ≤ e.rank) :
    e.term.FitsLeft o ↔ (t.isBitwise && e.compares) = false := by
  unfold Term.FitsLeft
  rcases term_cases hplain with ⟨hnone, hcompares⟩ | ⟨o', -, -, hrank⟩ | ⟨o', t', htop, ht', hrank, hcompares⟩
  · simp [hnone, hcompares]
  · rw [hrank] at h
    exact absurd h (by simp [Rank.le_iff, Rank.toNat])
  · rw [hrank] at h
    rw [htop, hcompares]
    simp only [Option.mem_some, forall_eq']
    exact Operator.not_takes_iff ht ht' (Nat.le_of_succ_le_succ h)

theorem fitsRight_iff (hplain : e.Plain b) {o : Operator} {t : Tier} (ht : o.tier? = some t) (h : .tier t < e.rank) :
    e.term.FitsRight o ↔ (t.isBitwise && e.compares) = false := by
  unfold Term.FitsRight
  rcases term_cases hplain with ⟨hnone, hcompares⟩ | ⟨o', -, -, hrank⟩ | ⟨o', t', htop, ht', hrank, hcompares⟩
  · simp [hnone, hcompares]
  · rw [hrank] at h
    exact absurd h (by simp [Rank.lt_iff, Rank.toNat])
  · rw [hrank] at h
    rw [htop, hcompares]
    simp only [Option.mem_some, forall_eq']
    exact Operator.takes_iff ht ht' (Nat.lt_of_succ_lt_succ h)

/-- What may be assigned to is not split by the assignment. -/
theorem fitsLeft_assignment (hplain : e.Plain b) {o : Operator} (ho : o.level = 0) (h : .assignment < e.rank) :
    e.term.FitsLeft o := by
  intro o' ho'
  rcases term_cases hplain with ⟨hnone, -⟩ | ⟨o', -, -, hrank⟩ | ⟨o'', t', htop, ht', -, -⟩
  · rw [hnone] at ho'
    cases ho'
  · rw [hrank] at h
    exact absurd h (by decide)
  · rw [htop] at ho'
    cases ho'
    have hpos := Operator.level_pos_of_tier? ht'
    simp only [Operator.Takes]
    omega

/-- On the right of an assignment everything fits. -/
theorem fitsRight_assignment (t : Term) {o : Operator} (ho : o.level = 0) : t.FitsRight o := by
  intro o' _
  simp only [Operator.Takes]
  omega

/-- A word is an operand. -/
theorem isOperand_ofWord (name : String) : (TokenKind.ofWord name).isOperand = true := by
  unfold TokenKind.ofWord
  split
  · rfl
  · split <;> rfl

/-- The term of a leveled expression is leveled in Solidity exactly if no comparison is an operand of a bitwise
operator. -/
theorem Leveled.term_leveled_iff (he : e.Leveled) (hplain : e.Plain b) : e.term.Leveled ↔ e.Unmixed := by
  induction he with
  | literal span value =>
    have hself := hplain.self
    have hoperand : value.kind.isOperand = true := by
      cases value with
      | bool value => cases value <;> rfl
      | number | string => rfl
      | _ => cases hself
    rw [unmixed_iff, term, Term.leveled_leaf_iff]
    simp [hoperand, mixes, children]
  | ident name =>
    rw [unmixed_iff, term, Term.leveled_leaf_iff]
    simp [isOperand_ofWord, mixes, children]
  | this | super =>
    rw [unmixed_iff, term, Term.leveled_leaf_iff]
    simp [TokenKind.isOperand, mixes, children]
  | @member span target name _ hrank ih =>
    have htarget : target.Plain b := hplain.child List.mem_cons_self
    rw [unmixed_iff, term, Term.leveled_member_iff, ih htarget]
    simp [operator?_of_suffixed htarget hrank, TokenKind.memberName?_ofWord, mixes, children]
  | @index span target key _ hrank _ ih ihkey =>
    have htarget : target.Plain b := hplain.child List.mem_cons_self
    have hkey : key.Plain b := hplain.child (List.mem_cons_of_mem _ List.mem_cons_self)
    rw [unmixed_iff, term, Term.leveled_index_iff, ih htarget, ihkey hkey]
    simp [operator?_of_suffixed htarget hrank, mixes, children]
  | @call span callee args _ hrank _ ih ihargs =>
    have hcallee : callee.Plain b := hplain.child List.mem_cons_self
    have hargs : (∀ a ∈ args.map term, a.Leveled) ↔ ∀ a ∈ args, a.Unmixed := by
      rw [List.forall_mem_map]
      exact forall_congr' fun a => forall_congr' fun ha => ihargs a ha (hplain.child (List.mem_cons_of_mem _ ha))
    rw [unmixed_iff, term, Term.leveled_call_iff, ih hcallee, terms_eq_map, hargs]
    simp [operator?_of_suffixed hcallee hrank, mixes, children]
  | @operation span op tier left right htier _ hl _ hr ihl ihr =>
    obtain ⟨o, ho⟩ := exists_operator hplain.self
    have htier' : o.tier? = some tier := by rw [← BinaryOp.tier?_of_operator? ho, htier]
    have hleft : left.Plain b := hplain.child List.mem_cons_self
    have hright : right.Plain b := hplain.child (List.mem_cons_of_mem _ List.mem_cons_self)
    have hmixes : (Expr.binary span op left right).mixes = false ↔
        (tier.isBitwise && left.compares) = false ∧ (tier.isBitwise && right.compares) = false := by
      rw [mixes, htier, Option.any_some, Bool.and_or_distrib_left, Bool.or_eq_false_iff]
    simp only [term, ho]
    rw [unmixed_iff, Term.leveled_operation_iff, ihl hleft, ihr hright, fitsLeft_iff hleft htier' hl,
      fitsRight_iff hright htier' hr, hmixes]
    simp only [children, List.forall_mem_cons, List.not_mem_nil, false_implies, implies_true, and_true]
    exact ⟨fun h => ⟨⟨h.1.2, h.2.2⟩, h.1.1, h.2.1⟩, fun h => ⟨⟨h.2.1, h.1.1⟩, h.2.2, h.1.2⟩⟩
  | @assignment span op left right hop _ hl _ ihl ihr =>
    obtain ⟨o, ho⟩ := exists_operator hplain.self
    have htier : op.tier? = none := by cases op <;> first | rfl | cases hop
    have hlevel : o.level = 0 := Operator.level_of_tier?_eq_none (by rw [← BinaryOp.tier?_of_operator? ho, htier])
    have hleft : left.Plain b := hplain.child List.mem_cons_self
    have hright : right.Plain b := hplain.child (List.mem_cons_of_mem _ List.mem_cons_self)
    have hmixes : (Expr.binary span op left right).mixes = false := by
      rw [mixes, htier]
      rfl
    simp only [term, ho]
    rw [unmixed_iff, Term.leveled_operation_iff, ihl hleft, ihr hright]
    simp [fitsLeft_assignment hleft hlevel hl, fitsRight_assignment right.term hlevel, hmixes, children]
  | @paren span inner _ ih =>
    rw [unmixed_iff, term, Term.leveled_paren_iff, ih (hplain.child List.mem_cons_self)]
    simp [mixes, children]
  | _ => cases hplain.self

end Expr

/-! ## Reading the text -/

/-- The term that a text makes up when its operators are grouped by the levels of Solidity. A text with faults has
none. -/
def Solidity.groupText (text : String) : Option Term :=
  if (scan text).all (fun t => t.errors.isEmpty) then group ((tokensOf text).map Token.kind).dropLast else none

/-- A text that is scanned as some tokens is grouped as they are. -/
theorem groupText_of_scans {text : String} {kinds : List TokenKind} (h : Scans text.toList kinds []) :
    groupText text = group kinds := by
  obtain ⟨hkinds, hclean⟩ := h.scan
  have hall : (scan text).all (fun t => t.errors.isEmpty) = true := by
    rw [List.all_eq_true]
    intro t ht
    rw [hclean t ht]
    rfl
  have htokens : (tokensOf text).map Token.kind = kinds ++ [TokenKind.endOfInput] := by
    rw [tokensOf, List.map_map]
    exact hkinds
  rw [groupText, if_pos hall, htokens, List.dropLast_concat]

/-- At the end of a text a word or a number is over. -/
theorem delimited_nil : Delimited [] := ⟨nofun, nofun⟩

/-- A name that its own text makes up is a word. -/
theorem isName_of_groupText {name : String} (h : groupText name = some (.leaf (.ofWord name))) : isName name = true := by
  unfold groupText at h
  split at h
  · have hprint := (leveled_of_group h).2
    have hmem : TokenKind.ofWord name ∈ ((tokensOf name).map Token.kind).dropLast := by
      rw [← hprint]
      exact List.mem_singleton.mpr rfl
    obtain ⟨t, ht, hkind⟩ := List.mem_map.mp ((List.dropLast_sublist _).subset hmem)
    exact isName_of_mem_tokensOf ht (by rw [hkind, TokenKind.memberName?_ofWord])
  · cases h

/-- An expression of a source text that is made only of what Solidity has too is written without a note, unless an access
in it is unknown. Its text groups as the expression exactly if no comparison in it is, without parentheses, an operand of
a bitwise operator, and it is not a single variable that is named by no word. -/
theorem rendering_keeps_grouping_iff (source : String) (b : Bindings) (journal : Journal) {e : Expr}
    (he : e ∈ (parse source).file.exprs.flatMap Expr.subexprs) (hplain : e.Plain b) :
    match e.firstUnknown? b with
    | some err => Rendering.expr b e journal = .error err journal
    | none => ∃ text, Rendering.expr b e journal = .ok text journal ∧
        (groupText text = some e.term ↔ e.Unmixed ∧ e.Named) := by
  obtain ⟨hspelled, hleveled⟩ := spelled_parse he
  by_cases hnamed : e.Named
  · have hrenders := Expr.renders_of_plain hplain hspelled hnamed journal
    split
    · rename_i err herr
      rw [herr] at hrenders
      exact hrenders
    · rename_i hnone
      rw [hnone] at hrenders
      obtain ⟨text, htext, hspells⟩ := hrenders
      refine ⟨text, htext, ?_⟩
      rw [groupText_of_scans (hspells [] delimited_nil), group_eq_some_iff, hleveled.term_leveled_iff hplain]
      simp [hnamed]
  · cases e with
    | ident name =>
      refine ⟨name.name, rfl, fun h => absurd (isName_of_groupText h) hnamed, fun h => absurd h.2 hnamed⟩
    | _ => exact absurd trivial hnamed

/-- The initializer in `class A { x = (a & b) == f(c.d); }`. -/
def enclosedMask : Expr :=
  .binary ⟨14, 31⟩ .eq
    (.paren ⟨14, 21⟩ (.binary ⟨15, 20⟩ .bitAnd (.ident ⟨"a", ⟨15, 16⟩⟩) (.ident ⟨"b", ⟨19, 20⟩⟩)))
    (.call ⟨25, 31⟩ (.ident ⟨"f", ⟨25, 26⟩⟩) [.member ⟨27, 30⟩ (.ident ⟨"c", ⟨27, 28⟩⟩) ⟨"d", ⟨29, 30⟩⟩])

/-- The initializer in `class A { x = (a & b) == f(c.d); }` is grouped as it was read. -/
theorem enclosedMask_keeps_grouping :
    enclosedMask ∈ (parse "class A \x7b x = (a & b) == f(c.d); \x7d").file.exprs.flatMap Expr.subexprs ∧
      enclosedMask.Plain .empty ∧
      ∃ text, Rendering.expr .empty enclosedMask [] = .ok text [] ∧ groupText text = some enclosedMask.term := by
  have hexprs : (parse "class A \x7b x = (a & b) == f(c.d); \x7d").file.exprs = [enclosedMask] := by
    decide +kernel
  have hmem : enclosedMask ∈ (parse "class A \x7b x = (a & b) == f(c.d); \x7d").file.exprs.flatMap Expr.subexprs := by
    rw [hexprs]
    exact List.mem_flatMap.mpr ⟨enclosedMask, List.mem_singleton.mpr rfl, Expr.mem_subexprs_self _⟩
  have hplain : enclosedMask.Plain .empty := by decide
  have hunmixed : enclosedMask.Unmixed := by decide
  obtain ⟨text, htext, hgroup⟩ := rendering_keeps_grouping_iff _ .empty [] hmem hplain
  exact ⟨hmem, hplain, text, htext, hgroup.mpr ⟨hunmixed, trivial⟩⟩

/-- The initializer in `class A { x = a & b == c; }`. -/
def maskedComparison : Expr :=
  .binary ⟨14, 24⟩ .bitAnd (.ident ⟨"a", ⟨14, 15⟩⟩)
    (.binary ⟨18, 24⟩ .eq (.ident ⟨"b", ⟨18, 19⟩⟩) (.ident ⟨"c", ⟨23, 24⟩⟩))

/-- The value of the field in `class A { x = {'a & b'}; }`. -/
def quotedName : Expr := .ident ⟨"a & b", ⟨15, 22⟩⟩

/-- The text of a comparison under a mask groups the mask first, and a variable named by no word may read as an
operation. -/
theorem maskedComparison_and_quotedName_regroup :
    (maskedComparison ∈ (parse "class A \x7b x = a & b == c; \x7d").file.exprs.flatMap Expr.subexprs ∧
      (parse "class A \x7b x = a & b == c; \x7d").errors = [] ∧ maskedComparison.Plain .empty ∧
      Rendering.expr .empty maskedComparison [] = .ok "a & b == c" [] ∧
      groupText "a & b == c" ≠ some maskedComparison.term) ∧
    (quotedName ∈ (parse "class A \x7b x = \x7b'a & b'\x7d; \x7d").file.exprs.flatMap Expr.subexprs ∧
      (parse "class A \x7b x = \x7b'a & b'\x7d; \x7d").errors = [] ∧ quotedName.Plain .empty ∧
      Rendering.expr .empty quotedName [] = .ok "a & b" [] ∧ groupText "a & b" ≠ some quotedName.term) := by
  have hmask : ((parse "class A \x7b x = a & b == c; \x7d").file.exprs,
      (parse "class A \x7b x = a & b == c; \x7d").errors) = ([maskedComparison], []) := by decide +kernel
  have hquoted : ((parse "class A \x7b x = \x7b'a & b'\x7d; \x7d").file.exprs,
      (parse "class A \x7b x = \x7b'a & b'\x7d; \x7d").errors) =
      ([.object ⟨14, 23⟩ [⟨⟨"a & b", ⟨15, 22⟩⟩, quotedName⟩]], []) := by decide +kernel
  have hgroup : (groupText "a & b == c").bind Term.operator? = some .eq := by decide +kernel
  have hgroup' : (groupText "a & b").bind Term.operator? = some .bitAnd := by decide +kernel
  obtain ⟨hmaskExprs, hmaskErrors⟩ := Prod.mk.inj hmask
  obtain ⟨hquotedExprs, hquotedErrors⟩ := Prod.mk.inj hquoted
  refine ⟨⟨?_, hmaskErrors, by decide, by rfl, ?_⟩, ?_, hquotedErrors, by decide, by rfl, ?_⟩
  · rw [hmaskExprs]
    exact List.mem_flatMap.mpr ⟨maskedComparison, List.mem_singleton.mpr rfl, Expr.mem_subexprs_self _⟩
  · intro h
    rw [h] at hgroup
    cases hgroup
  · rw [hquotedExprs]
    exact List.mem_flatMap.mpr ⟨_, List.mem_singleton.mpr rfl, List.mem_cons_of_mem _ List.mem_cons_self⟩
  · intro h
    rw [h] at hgroup'
    cases hgroup'

end ContractCompiler
