import ContractCompiler.Proofs.Printing.Print

/-!
# How Solidity groups operators

The operators a contract is written with have levels: assignments are loosest, then come `||`, `&&`, equality,
comparison, `|`, `^`, `&` and, tightest, addition and subtraction. Assignments group to the right and all others to the
left; members, indexes and calls hold more tightly than any operator.

`group` reads a list of tokens from left to right by these rules. It keeps the brackets that are open and, inside the
innermost one, the tree of the operands before; an operand that is complete is put into that tree as deep on the right
as its operator reaches. The trees it gives are the leveled ones, each for the tokens that print it.
-/

namespace ContractCompiler

/-- Whether a token is an operand by itself: a word, a number or a string. -/
def TokenKind.isOperand : TokenKind → Bool
  | .ident _ | .privateName _ | .keyword _ | .number _ | .string _ => true
  | _ => false

namespace Solidity

/-- The operators of Solidity that have a counterpart. -/
inductive Operator where
  | assign | subAssign | or | and | eq | notEq | lt | gt | le | ge | bitOr | bitXor | bitAnd | add | sub
deriving DecidableEq, Repr

namespace Operator

/-- The mark that spells an operator. -/
def mark : Operator → Mark
  | .assign => .eq
  | .subAssign => .minusEq
  | .or => .orOr
  | .and => .andAnd
  | .eq => .eqEq
  | .notEq => .bangEq
  | .lt => .lt
  | .gt => .gt
  | .le => .le
  | .ge => .ge
  | .bitOr => .pipe
  | .bitXor => .caret
  | .bitAnd => .amp
  | .add => .plus
  | .sub => .minus

/-- The operator that a mark spells. -/
def ofMark? : Mark → Option Operator
  | .eq => some .assign
  | .minusEq => some .subAssign
  | .orOr => some .or
  | .andAnd => some .and
  | .eqEq => some .eq
  | .bangEq => some .notEq
  | .lt => some .lt
  | .gt => some .gt
  | .le => some .le
  | .ge => some .ge
  | .pipe => some .bitOr
  | .caret => some .bitXor
  | .amp => some .bitAnd
  | .plus => some .add
  | .minus => some .sub
  | _ => none

/-- An operator found for a mark is spelled by it. -/
theorem mark_of_ofMark? {m : Mark} {op : Operator} (h : ofMark? m = some op) : op.mark = m := by
  cases m <;> cases h <;> rfl

/-- The level of an operator, the loosest first. -/
def level : Operator → Nat
  | .assign | .subAssign => 0
  | .or => 1
  | .and => 2
  | .eq | .notEq => 3
  | .lt | .gt | .le | .ge => 4
  | .bitOr => 5
  | .bitXor => 6
  | .bitAnd => 7
  | .add | .sub => 8

/-- Whether `op`, standing behind the right operand of `o`, takes that operand: it is tighter, or both are
assignments. -/
def Takes (op o : Operator) : Prop := o.level < op.level ∨ o.level = 0 ∧ op.level = 0

instance (op o : Operator) : Decidable (op.Takes o) :=
  inferInstanceAs (Decidable (o.level < op.level ∨ o.level = 0 ∧ op.level = 0))

end Operator

/-! ## Trees -/

/-- An expression of Solidity, as far as operators group it. -/
inductive Term where
  /-- A word, a number or a string. -/
  | leaf (kind : TokenKind)
  /-- `target.name` -/
  | member (target : Term) (name : TokenKind)
  /-- `target[key]` -/
  | index (target key : Term)
  | call (target : Term) (args : List Term)
  | paren (inner : Term)
  | operation (op : Operator) (left right : Term)
deriving Repr

namespace Term

mutual

/-- The tokens of a term, with no parentheses of its own. -/
@[simp]
def print : Term → List TokenKind
  | .leaf kind => [kind]
  | .member target name => target.print ++ [.mark .dot, name]
  | .index target key => target.print ++ .mark .lbracket :: (key.print ++ [.mark .rbracket])
  | .call target args => target.print ++ .mark .lparen :: (TokenKind.commas (printAll args) ++ [.mark .rparen])
  | .paren inner => .mark .lparen :: (inner.print ++ [.mark .rparen])
  | .operation op left right => left.print ++ .mark op.mark :: right.print

/-- The tokens of several terms. -/
def printAll : List Term → List (List TokenKind)
  | [] => []
  | t :: ts => t.print :: printAll ts

end

/-- Several terms are printed one by one. -/
theorem printAll_eq_map (ts : List Term) : printAll ts = ts.map print := by
  induction ts with
  | nil => rfl
  | cons t ts ih => rw [printAll, ih, List.map_cons]

/-- The outermost operator. -/
def operator? : Term → Option Operator
  | .operation op _ _ => some op
  | _ => none

/-- The term can stand on the left of `op`: `op` does not take part of it. -/
def FitsLeft (t : Term) (op : Operator) : Prop := ∀ o ∈ t.operator?, ¬ op.Takes o

/-- The term can stand on the right of `op`: its own operator takes it away from `op`. -/
def FitsRight (t : Term) (op : Operator) : Prop := ∀ o ∈ t.operator?, o.Takes op

/-- No operand, here or deeper, is looser than its place allows. -/
inductive Leveled : Term → Prop where
  | leaf {kind : TokenKind} : kind.isOperand = true → Leveled (.leaf kind)
  | member {target : Term} {name : TokenKind} :
      target.Leveled → target.operator? = none → name.memberName?.isSome = true → Leveled (.member target name)
  | index {target key : Term} :
      target.Leveled → target.operator? = none → key.Leveled → Leveled (.index target key)
  | call {target : Term} {args : List Term} :
      target.Leveled → target.operator? = none → (∀ a ∈ args, a.Leveled) → Leveled (.call target args)
  | paren {inner : Term} : inner.Leveled → Leveled (.paren inner)
  | operation {op : Operator} {left right : Term} :
      left.Leveled → left.FitsLeft op → right.Leveled → right.FitsRight op → Leveled (.operation op left right)

/-- A single token is leveled if it is an operand. -/
theorem leveled_leaf_iff {kind : TokenKind} : (Term.leaf kind).Leveled ↔ kind.isOperand = true :=
  ⟨fun h => by cases h with | leaf h => exact h, .leaf⟩

/-- A member is leveled if its target is a leveled operand. -/
theorem leveled_member_iff {target : Term} {name : TokenKind} : (Term.member target name).Leveled ↔
    target.Leveled ∧ target.operator? = none ∧ name.memberName?.isSome = true :=
  ⟨fun h => by cases h with | member h h' h'' => exact ⟨h, h', h''⟩, fun h => .member h.1 h.2.1 h.2.2⟩

/-- An index is leveled if its target is a leveled operand and its key is leveled. -/
theorem leveled_index_iff {target key : Term} : (Term.index target key).Leveled ↔
    target.Leveled ∧ target.operator? = none ∧ key.Leveled :=
  ⟨fun h => by cases h with | index h h' h'' => exact ⟨h, h', h''⟩, fun h => .index h.1 h.2.1 h.2.2⟩

/-- A call is leveled if its target is a leveled operand and its arguments are leveled. -/
theorem leveled_call_iff {target : Term} {args : List Term} : (Term.call target args).Leveled ↔
    target.Leveled ∧ target.operator? = none ∧ ∀ a ∈ args, a.Leveled :=
  ⟨fun h => by cases h with | call h h' h'' => exact ⟨h, h', h''⟩, fun h => .call h.1 h.2.1 h.2.2⟩

/-- Parentheses are leveled if what they hold is. -/
theorem leveled_paren_iff {inner : Term} : (Term.paren inner).Leveled ↔ inner.Leveled :=
  ⟨fun h => by cases h with | paren h => exact h, .paren⟩

/-- An operation is leveled if both operands are and fit their sides. -/
theorem leveled_operation_iff {op : Operator} {left right : Term} : (Term.operation op left right).Leveled ↔
    (left.Leveled ∧ left.FitsLeft op) ∧ right.Leveled ∧ right.FitsRight op :=
  ⟨fun h => by cases h with | operation hl hfits hr hfits' => exact ⟨⟨hl, hfits⟩, hr, hfits'⟩,
    fun h => .operation h.1.1 h.1.2 h.2.1 h.2.2⟩

/-- The tree with one more operator and operand behind it. -/
def extend (t : Term) (op : Operator) (a : Term) : Term :=
  match t with
  | .operation o left right =>
    if op.Takes o then .operation o left (right.extend op a) else .operation op (.operation o left right) a
  | t => .operation op t a

end Term

/-! ## Reading tokens -/

/-- The tree before an operand, if there is one, and the operator between them. -/
abbrev Pending := Option (Term × Operator)

/-- The tree once its last operand is complete. -/
def Pending.join : Pending → Term → Term
  | none, a => a
  | some (t, op), a => t.extend op a

/-- A bracket that is open: parentheses around a term, the key of an index, or the arguments of a call, of which those
before the last comma are complete. -/
inductive Bracket where
  | paren
  | index (target : Term)
  | call (target : Term) (args : List Term)

/-- The operand that is complete when `m` closes the bracket behind the term `t`. -/
def Bracket.close? : Bracket → Mark → Term → Option Term
  | .paren, .rparen, t => some (.paren t)
  | .index target, .rbracket, t => some (.index target t)
  | .call target args, .rparen, t => some (.call target (args ++ [t]))
  | _, _, _ => none

/-- What stands at the end of the tokens read: nothing of an operand, an operand and a point, or an operand. -/
inductive Focus where
  | start
  | point (a : Term)
  | operand (a : Term)

/-- What is left to do after some tokens: the open brackets, the innermost first, each with the tree before it; the tree
inside the innermost one; and the operand that is being read. -/
structure State where
  outer : List (Pending × Bracket)
  left : Pending
  focus : Focus

namespace State

/-- The start of a text. -/
def initial : State := ⟨[], none, .start⟩

/-- Where an operand has to start. An empty argument list may end. -/
def enter (s : State) : TokenKind → Option State
  | .mark .lparen => some ⟨(s.left, .paren) :: s.outer, none, .start⟩
  | .mark .rparen =>
    match s.outer, s.left with
    | (left, .call target []) :: outer, none => some ⟨outer, left, .operand (.call target [])⟩
    | _, _ => none
  | kind => if kind.isOperand then some { s with focus := .operand (.leaf kind) } else none

/-- Behind the operand `a`: a suffix of it, the end of the bracket around it, a comma, or an operator. -/
def leave (s : State) (a : Term) : TokenKind → Option State
  | .mark .dot => some { s with focus := .point a }
  | .mark .lbracket => some ⟨(s.left, .index a) :: s.outer, none, .start⟩
  | .mark .lparen => some ⟨(s.left, .call a []) :: s.outer, none, .start⟩
  | .mark .comma =>
    match s.outer with
    | (left, .call target args) :: outer => some ⟨(left, .call target (args ++ [s.left.join a])) :: outer, none, .start⟩
    | _ => none
  | .mark m =>
    match Operator.ofMark? m, s.outer with
    | some op, outer => some ⟨outer, some (s.left.join a, op), .start⟩
    | none, (left, bracket) :: outer =>
      (bracket.close? m (s.left.join a)).map fun t => ⟨outer, left, .operand t⟩
    | none, [] => none
  | _ => none

/-- One more token. -/
def step (s : State) (kind : TokenKind) : Option State :=
  match s.focus with
  | .start => s.enter kind
  | .point a => if kind.memberName?.isSome then some { s with focus := .operand (.member a kind) } else none
  | .operand a => s.leave a kind

/-- Several more tokens. -/
def run (s : State) (kinds : List TokenKind) : Option State := kinds.foldlM step s

/-- The term that was read, if it is complete. -/
def result? (s : State) : Option Term :=
  match s.outer, s.focus with
  | [], .operand a => some (s.left.join a)
  | _, _ => none

end State

/-- The term that the tokens make up when operators are grouped by their levels. -/
def group (kinds : List TokenKind) : Option Term := (State.initial.run kinds).bind State.result?

/-! ## What is read is leveled and is all there was -/

namespace Term

variable {t a : Term} {op : Operator}

/-- A term that is no operation has no operator. -/
theorem operator?_eq_none (h : ∀ o left right, t ≠ .operation o left right) : t.operator? = none := by
  cases t with
  | operation o left right => exact absurd rfl (h o left right)
  | _ => rfl

/-- A term without an operator fits on the right of any. -/
theorem fitsRight_of_operator?_eq_none (h : a.operator? = none) (op : Operator) : a.FitsRight op := by
  intro o ho
  rw [h] at ho
  cases ho

/-- It fits on the left of any, too. -/
theorem fitsLeft_of_operator?_eq_none (h : a.operator? = none) (op : Operator) : a.FitsLeft op := by
  intro o ho
  rw [h] at ho
  cases ho

/-- An operator that does not take part of a tree stands above it. -/
theorem extend_of_fitsLeft (h : t.FitsLeft op) (a : Term) : t.extend op a = .operation op t a := by
  cases t with
  | operation o left right => exact if_neg (h o rfl)
  | _ => rfl

/-- One more operator and operand are printed behind the term. -/
theorem print_extend (t : Term) (op : Operator) (a : Term) :
    (t.extend op a).print = t.print ++ .mark op.mark :: a.print := by
  fun_induction extend t op a with
  | case1 o left right _ ih => simp [ih]
  | case2 => rfl
  | case3 => rfl

/-- The operator of the extended term is the new one or that of the term. -/
theorem operator?_extend (t : Term) (op : Operator) (a : Term) :
    ∀ o ∈ (t.extend op a).operator?, o = op ∨ o ∈ t.operator? := by
  by_cases h : t.FitsLeft op
  · rw [extend_of_fitsLeft h]
    rintro _ ⟨⟩
    exact .inl rfl
  · cases t with
    | operation o left right =>
      intro o' ho'
      rw [extend] at ho'
      split at ho' <;> cases ho'
      · exact .inr rfl
      · exact .inl rfl
    | _ => exact absurd nofun h

/-- Putting a single operand behind a tree keeps it leveled. -/
theorem Leveled.extend (ht : t.Leveled) (ha : a.Leveled) (hatom : a.operator? = none) : (t.extend op a).Leveled := by
  have hfits := fitsRight_of_operator?_eq_none hatom op
  fun_induction Term.extend t op a with
  | case1 o left right htakes ih =>
    cases ht with
    | operation hleft hfits₁ hright hfits₂ =>
      refine .operation hleft hfits₁ (ih hright) fun o' ho' => ?_
      rcases operator?_extend right op a o' ho' with rfl | ho'
      · exact htakes
      · exact hfits₂ o' ho'
  | case2 o left right htakes =>
    refine .operation ht ?_ ha hfits
    rintro _ ⟨⟩
    exact htakes
  | case3 t hatom' => exact .operation ht (fitsLeft_of_operator?_eq_none (operator?_eq_none hatom') op) ha hfits

end Term

/-- The last of several token lists stands behind the comma after the others. -/
theorem commas_concat (ks : List (List TokenKind)) (last : List TokenKind) :
    TokenKind.commas (ks ++ [last]) = ks.flatMap (· ++ [TokenKind.mark .comma]) ++ last := by
  fun_induction TokenKind.commas ks with
  | case1 => simp [TokenKind.commas]
  | case2 kinds => simp [TokenKind.commas]
  | case3 kinds rest hrest ih =>
    cases rest with
    | nil => exact absurd rfl (hrest)
    | cons k rest => simp_all [TokenKind.commas]

/-! The tokens read so far, as the state keeps them. -/

/-- The tokens of a tree and the operator behind it. -/
@[simp]
def Pending.print : Pending → List TokenKind
  | none => []
  | some (t, op) => t.print ++ [.mark op.mark]

/-- The tokens of a bracket that is open, and of what it already holds. -/
@[simp]
def Bracket.print : Bracket → List TokenKind
  | .paren => [.mark .lparen]
  | .index target => target.print ++ [.mark .lbracket]
  | .call target args => target.print ++ .mark .lparen :: (args.map Term.print).flatMap (· ++ [.mark .comma])

/-- The tokens of what is being read. -/
@[simp]
def Focus.print : Focus → List TokenKind
  | .start => []
  | .point a => a.print ++ [.mark .dot]
  | .operand a => a.print

namespace State

/-- The tokens inside the innermost bracket are behind those of the brackets around it. -/
@[simp]
def printOuter : List (Pending × Bracket) → List TokenKind
  | [] => []
  | (left, bracket) :: outer => printOuter outer ++ (left.print ++ bracket.print)

/-- The tokens read so far. -/
@[simp]
def print (s : State) : List TokenKind := printOuter s.outer ++ (s.left.print ++ s.focus.print)

end State

/-! Every term that a state keeps is leveled. -/

/-- A leveled term that no operator splits. -/
def Term.Single (a : Term) : Prop := a.Leveled ∧ a.operator? = none

/-- The tree that is kept is leveled. -/
def Pending.Kept (left : Pending) : Prop := ∀ p ∈ left, p.1.Leveled

/-- The terms of a bracket are leveled. -/
def Bracket.Kept : Bracket → Prop
  | .paren => True
  | .index target => target.Single
  | .call target args => target.Single ∧ ∀ a ∈ args, a.Leveled

/-- The operand that is being read is a single one. -/
def Focus.Kept : Focus → Prop
  | .start => True
  | .point a | .operand a => a.Single

/-- The terms of a state are leveled. -/
structure State.Kept (s : State) : Prop where
  outer : ∀ p ∈ s.outer, p.1.Kept ∧ p.2.Kept
  left : s.left.Kept
  focus : s.focus.Kept

/-- A leveled tree with one more single operand is leveled. -/
theorem Pending.Kept.join {left : Pending} {a : Term} (hleft : left.Kept) (ha : a.Single) : (left.join a).Leveled := by
  cases left with
  | none => exact ha.1
  | some p => exact (hleft p rfl).extend ha.1 ha.2

/-- Where nothing is kept everything that is kept is leveled. -/
theorem Pending.kept_none : Pending.Kept none := nofun

/-- An operand is printed behind the tree it is joined to. -/
@[simp]
theorem Pending.print_join (left : Pending) (a : Term) : (left.join a).print = left.print ++ a.print := by
  cases left with
  | none => rfl
  | some p => simp [join, Term.print_extend]

/-- Closing a bracket behind a leveled term gives a single operand. -/
theorem Bracket.close?_eq_some {bracket : Bracket} {m : Mark} {t a : Term} (hbracket : bracket.Kept) (ht : t.Leveled)
    (h : bracket.close? m t = some a) : a.Single ∧ a.print = bracket.print ++ t.print ++ [TokenKind.mark m] := by
  unfold close? at h
  split at h <;> cases h
  · exact ⟨⟨.paren ht, rfl⟩, by simp⟩
  · exact ⟨⟨.index hbracket.1 hbracket.2 ht, rfl⟩, by simp⟩
  · rename_i target args
    have hargs : ∀ x ∈ args ++ [t], x.Leveled := List.forall_mem_append.mpr ⟨hbracket.2, by simpa using ht⟩
    exact ⟨⟨.call hbracket.1.1 hbracket.1.2 hargs, rfl⟩, by simp [Term.printAll_eq_map, commas_concat]⟩

namespace State

variable {s s' : State} {kind : TokenKind} {a : Term}

/-- Where an operand starts, a token keeps the terms leveled and is the last one read. -/
theorem enter_eq_some (hs : s.Kept) (hfocus : s.focus = .start) (h : s.enter kind = some s') :
    s'.Kept ∧ s'.print = s.print ++ [kind] := by
  obtain ⟨outer, left, focus⟩ := s
  obtain rfl : focus = .start := hfocus
  unfold enter at h
  split at h
  · cases h
    exact ⟨⟨List.forall_mem_cons.mpr ⟨⟨hs.left, trivial⟩, hs.outer⟩, Pending.kept_none, trivial⟩, by simp⟩
  · split at h
    · rename_i left' target outer' _ houter hleft
      dsimp only at houter hleft
      subst houter hleft
      cases h
      obtain ⟨⟨hleft', htarget, -⟩, houter'⟩ := List.forall_mem_cons.mp hs.outer
      exact ⟨⟨houter', hleft', .call htarget.1 htarget.2 nofun, rfl⟩, by simp [Term.printAll, TokenKind.commas]⟩
    · cases h
  · split at h
    · rename_i hkind
      cases h
      exact ⟨⟨hs.outer, hs.left, .leaf hkind, rfl⟩, by simp⟩
    · cases h

theorem leave_eq_some (hs : s.Kept) (hfocus : s.focus = .operand a) (h : s.leave a kind = some s') :
    s'.Kept ∧ s'.print = s.print ++ [kind] := by
  obtain ⟨outer, left, focus⟩ := s
  obtain rfl : focus = .operand a := hfocus
  have ha : a.Single := hs.focus
  have hjoin := hs.left.join ha
  unfold leave at h
  split at h
  · cases h
    exact ⟨⟨hs.outer, hs.left, ha⟩, by simp⟩
  · cases h
    exact ⟨⟨List.forall_mem_cons.mpr ⟨⟨hs.left, ha⟩, hs.outer⟩, Pending.kept_none, trivial⟩, by simp⟩
  · cases h
    exact ⟨⟨List.forall_mem_cons.mpr ⟨⟨hs.left, ha, nofun⟩, hs.outer⟩, Pending.kept_none, trivial⟩, by simp⟩
  · split at h
    · rename_i left' target args outer' houter
      dsimp only at houter
      subst houter
      cases h
      obtain ⟨⟨hleft', htarget, hargs⟩, houter'⟩ := List.forall_mem_cons.mp hs.outer
      have hargs' : ∀ x ∈ args ++ [left.join a], x.Leveled :=
        List.forall_mem_append.mpr ⟨hargs, by simpa using hjoin⟩
      exact ⟨⟨List.forall_mem_cons.mpr ⟨⟨hleft', htarget, hargs'⟩, houter'⟩, Pending.kept_none, trivial⟩, by simp⟩
    · cases h
  · split at h
    · rename_i op _ hop
      cases h
      refine ⟨⟨hs.outer, ?_, trivial⟩, by simp [Operator.mark_of_ofMark? hop]⟩
      rintro _ ⟨⟩
      exact hjoin
    · rename_i left' bracket outer' _ houter
      dsimp only at houter
      subst houter
      obtain ⟨t, ht, rfl⟩ := Option.map_eq_some_iff.mp h
      obtain ⟨⟨hleft', hbracket⟩, houter'⟩ := List.forall_mem_cons.mp hs.outer
      obtain ⟨hsingle, hprint⟩ := Bracket.close?_eq_some hbracket hjoin ht
      exact ⟨⟨houter', hleft', hsingle⟩, by simp [hprint]⟩
    · cases h
  · cases h

/-- Reading a token keeps the terms leveled and adds the token. -/
theorem step_eq_some (hs : s.Kept) (h : s.step kind = some s') : s'.Kept ∧ s'.print = s.print ++ [kind] := by
  unfold step at h
  split at h
  · exact enter_eq_some hs ‹_› h
  · rename_i a hfocus
    have ha : s.focus.Kept := hs.focus
    rw [hfocus] at ha
    split at h
    · rename_i hname
      cases h
      exact ⟨⟨hs.outer, hs.left, .member ha.1 ha.2 hname, rfl⟩, by simp [hfocus]⟩
    · cases h
  · exact leave_eq_some hs ‹_› h

theorem run_eq_some {kinds : List TokenKind} (hs : s.Kept) (h : s.run kinds = some s') :
    s'.Kept ∧ s'.print = s.print ++ kinds := by
  induction kinds generalizing s with
  | nil =>
    cases h
    exact ⟨hs, by simp⟩
  | cons kind kinds ih =>
    obtain ⟨s₁, hstep, hrun⟩ := Option.bind_eq_some_iff.mp h
    obtain ⟨hs₁, hprint₁⟩ := step_eq_some hs hstep
    obtain ⟨hs', hprint'⟩ := ih hs₁ hrun
    exact ⟨hs', by rw [hprint', hprint₁, List.append_assoc, List.singleton_append]⟩

/-- At the start of a text nothing is kept. -/
theorem kept_initial : initial.Kept := ⟨nofun, nofun, trivial⟩

/-- At the start of a text nothing has been read. -/
theorem print_initial : initial.print = [] := rfl

end State

/-- A term that was read is leveled, and its tokens are all that was read. -/
theorem leveled_of_group {kinds : List TokenKind} {t : Term} (h : group kinds = some t) :
    t.Leveled ∧ t.print = kinds := by
  obtain ⟨s, hrun, hresult⟩ := Option.bind_eq_some_iff.mp h
  obtain ⟨hs, hprint⟩ := State.run_eq_some State.kept_initial hrun
  unfold State.result? at hresult
  split at hresult
  · rename_i a houter hfocus
    cases hresult
    have ha : s.focus.Kept := hs.focus
    rw [hfocus] at ha
    refine ⟨hs.left.join ha, ?_⟩
    rw [State.print_initial, List.nil_append] at hprint
    rw [Pending.print_join, ← hprint, State.print, houter, hfocus]
    rfl
  · cases hresult

/-! ## Every leveled term is read -/

namespace Term

variable {op o : Operator} {t left right : Term}

/-- The tree that comes of reading the operands and operators of a term one by one. -/
def attach : Pending → Term → Term
  | before, .operation op left right => attach (some (attach before left, op)) right
  | before, t => before.join t

/-- A term without an operator is a single operand. -/
theorem attach_of_operator?_eq_none (h : t.operator? = none) (before : Pending) : attach before t = before.join t := by
  cases t with
  | operation => cases h
  | _ => rfl

/-- Every operator of the term that is not inside something else takes the right operand of `op`. -/
def Inside (op : Operator) : Term → Prop
  | .operation o left right => o.Takes op ∧ left.Inside op ∧ right.Inside op
  | _ => True

/-- A leveled term that fits on the right of an operator has only operators inside it that take its right operand. -/
theorem Leveled.inside (ht : t.Leveled) (h : t.FitsRight op) : t.Inside op := by
  induction ht with
  | @operation o left right _ hleft _ hright ihl ihr =>
    have ho : o.Takes op := h o rfl
    -- the operators left of `o` are at least as tight as it is, those right of it tighter or assignments too
    refine ⟨ho, ihl fun o' ho' => ?_, ihr fun o' ho' => ?_⟩
    · have hnot := hleft o' ho'
      simp only [Operator.Takes] at ho hnot ⊢
      omega
    · have htakes := hright o' ho'
      simp only [Operator.Takes] at ho htakes ⊢
      omega
  | _ => trivial

/-- Operators that take the right operand are attached inside it. -/
theorem attach_operation {x : Term} (h : right.Inside op) (ho : o.Takes op) :
    attach (some (.operation op left x, o)) right = .operation op left (attach (some (x, o)) right) := by
  fun_induction Inside op right generalizing x o with
  | case1 o' first second ih₁ ih₂ =>
    obtain ⟨ho', hfirst, hsecond⟩ := h
    rw [attach, ih₁ hfirst ho, ih₂ hsecond ho', attach]
  | case2 t hatom =>
    have hnone := operator?_eq_none hatom
    rw [attach_of_operator?_eq_none hnone, attach_of_operator?_eq_none hnone]
    exact if_pos ho

/-- What is read behind an operator becomes its right operand. -/
theorem attach_some (hleft : left.FitsLeft op) (hright : right.Inside op) :
    attach (some (left, op)) right = .operation op left (attach none right) := by
  fun_induction Inside op right with
  | case1 o first second ih₁ ih₂ =>
    obtain ⟨ho, hfirst, hsecond⟩ := hright
    rw [attach, ih₁ hfirst, attach_operation hsecond ho, attach]
  | case2 t hatom =>
    have hnone := operator?_eq_none hatom
    rw [attach_of_operator?_eq_none hnone, attach_of_operator?_eq_none hnone]
    exact extend_of_fitsLeft hleft t

/-- Reading a leveled term operand by operand gives the term. -/
theorem Leveled.attach_none (ht : t.Leveled) : attach none t = t := by
  induction ht with
  | operation _ hleft hright hfits ihl ihr => rw [attach, ihl, attach_some hleft (hright.inside hfits), ihr]
  | _ => rfl

end Term

namespace State

/-- Tokens are read one list after the other. -/
theorem run_append (s : State) (ks ls : List TokenKind) : s.run (ks ++ ls) = (s.run ks).bind (run · ls) :=
  List.foldlM_append

/-- The first token is read before the others. -/
theorem run_cons (s : State) (kind : TokenKind) (kinds : List TokenKind) :
    s.run (kind :: kinds) = (s.step kind).bind (run · kinds) := List.foldlM_cons

/-- Where an operand starts, the tokens of `t` are read as the operands and operators of `t`. -/
def Reads (t : Term) : Prop := ∀ outer left, ∃ left' a, run ⟨outer, left, .start⟩ t.print = some ⟨outer, left', .operand a⟩ ∧
  Pending.join left' a = t.attach left ∧ (t.operator? = none → left' = left ∧ a = t)

/-- A term without an operator is read if it is read as an operand. -/
theorem Reads.of_single {t : Term} (ht : t.operator? = none)
    (h : ∀ outer left, run ⟨outer, left, .start⟩ t.print = some ⟨outer, left, .operand t⟩) : Reads t := fun outer left =>
  ⟨left, t, h outer left, (Term.attach_of_operator?_eq_none ht left).symm, fun _ => ⟨rfl, rfl⟩⟩

/-- The tokens of a single operand are read as it. -/
theorem Reads.single {t : Term} (h : Reads t) (ht : t.operator? = none) (outer : List (Pending × Bracket))
    (left : Pending) : run ⟨outer, left, .start⟩ t.print = some ⟨outer, left, .operand t⟩ := by
  obtain ⟨left', a, hrun, -, hsame⟩ := h outer left
  obtain ⟨rfl, rfl⟩ := hsame ht
  exact hrun

/-- Behind an opening bracket, the tokens of a leveled term are read as a tree that is it. -/
theorem Reads.whole {t : Term} (h : Reads t) (ht : t.Leveled) (outer : List (Pending × Bracket)) :
    ∃ left a, run ⟨outer, none, .start⟩ t.print = some ⟨outer, left, .operand a⟩ ∧ Pending.join left a = t := by
  obtain ⟨left, a, hrun, hjoin, -⟩ := h outer none
  exact ⟨left, a, hrun, by rw [hjoin, ht.attach_none]⟩

/-- The arguments of a call, behind those before the last comma. -/
theorem run_args {target : Term} {args : List Term} (hreads : ∀ a ∈ args, Reads a) (hleveled : ∀ a ∈ args, a.Leveled)
    {before : List Term} (hne : before = [] ∨ args ≠ []) (outer : List (Pending × Bracket)) (left : Pending) :
    run ⟨(left, .call target before) :: outer, none, .start⟩
        (TokenKind.commas (args.map Term.print) ++ [TokenKind.mark .rparen]) =
      some ⟨outer, left, .operand (.call target (before ++ args))⟩ := by
  -- on the arguments still to come: each one that a comma ends joins those before it
  induction args generalizing before with
  | nil =>
    rcases hne with rfl | hne
    · rfl
    · exact absurd rfl hne
  | cons a args ih =>
    obtain ⟨left', a', hrun, hjoin⟩ :=
      (hreads a List.mem_cons_self).whole (hleveled a List.mem_cons_self) ((left, .call target before) :: outer)
    cases args with
    | nil =>
      have hclose : step ⟨(left, .call target before) :: outer, left', .operand a'⟩ (.mark .rparen) =
          some ⟨outer, left, .operand (.call target (before ++ [a]))⟩ := by rw [← hjoin]; rfl
      rw [List.map_singleton, TokenKind.commas, run_append, hrun, Option.bind_some, run_cons, hclose]
      rfl
    | cons b args =>
      have hcomma : step ⟨(left, .call target before) :: outer, left', .operand a'⟩ (.mark .comma) =
          some ⟨(left, .call target (before ++ [a])) :: outer, none, .start⟩ := by rw [← hjoin]; rfl
      have hrest := @ih (fun x hx => hreads x (List.mem_cons_of_mem _ hx))
        (fun x hx => hleveled x (List.mem_cons_of_mem _ hx)) (before ++ [a]) (.inr (List.cons_ne_nil _ _))
      rw [List.map_cons, List.map_cons, TokenKind.commas, List.append_assoc, run_append, hrun, Option.bind_some,
        List.cons_append, run_cons, hcomma, Option.bind_some, ← List.map_cons, hrest, List.append_assoc]
      · rfl
      · exact List.cons_ne_nil _ _

/-- The tokens of a leveled term are read as it. -/
theorem reads_of_leveled {t : Term} (ht : t.Leveled) : Reads t := by
  induction ht with
  | @leaf kind hkind =>
    refine .of_single rfl fun outer left => ?_
    cases kind <;> first | rfl | cases hkind
  | @member target name htarget hatom hname ih =>
    refine .of_single rfl fun outer left => ?_
    have hstep : step ⟨outer, left, .point target⟩ name = some ⟨outer, left, .operand (.member target name)⟩ :=
      if_pos hname
    rw [Term.print, run_append, ih.single hatom, Option.bind_some, run_cons]
    exact congrArg (Option.bind · _) hstep
  | @index target key htarget hatom hkey ih ihkey =>
    refine .of_single rfl fun outer left => ?_
    obtain ⟨left', a, hrun, hjoin⟩ := ihkey.whole hkey ((left, .index target) :: outer)
    have hclose : step ⟨(left, .index target) :: outer, left', .operand a⟩ (.mark .rbracket) =
        some ⟨outer, left, .operand (.index target key)⟩ := by rw [← hjoin]; rfl
    have hopen : step ⟨outer, left, .operand target⟩ (.mark .lbracket) =
        some ⟨(left, .index target) :: outer, none, .start⟩ := rfl
    rw [Term.print, run_append, ih.single hatom, Option.bind_some, run_cons, hopen, Option.bind_some, run_append, hrun,
      Option.bind_some, run_cons, hclose]
    rfl
  | @call target args htarget hatom hargs ih ihargs =>
    refine .of_single rfl fun outer left => ?_
    have hopen : step ⟨outer, left, .operand target⟩ (.mark .lparen) =
        some ⟨(left, .call target []) :: outer, none, .start⟩ := rfl
    rw [Term.print, run_append, ih.single hatom, Option.bind_some, run_cons, hopen, Option.bind_some,
      Term.printAll_eq_map, run_args ihargs hargs (.inl rfl)]
    rfl
  | @paren inner hinner ih =>
    refine .of_single rfl fun outer left => ?_
    obtain ⟨left', a, hrun, hjoin⟩ := ih.whole hinner ((left, .paren) :: outer)
    have hclose : step ⟨(left, .paren) :: outer, left', .operand a⟩ (.mark .rparen) =
        some ⟨outer, left, .operand (.paren inner)⟩ := by rw [← hjoin]; rfl
    have hopen : step ⟨outer, left, .start⟩ (.mark .lparen) = some ⟨(left, .paren) :: outer, none, .start⟩ := rfl
    rw [Term.print, run_cons, hopen, Option.bind_some, run_append, hrun, Option.bind_some, run_cons, hclose]
    rfl
  | @operation op first second _ _ _ _ ihl ihr =>
    intro outer left
    obtain ⟨left₁, a₁, hrun₁, hjoin₁, -⟩ := ihl outer left
    obtain ⟨left₂, a₂, hrun₂, hjoin₂, -⟩ := ihr outer (some (left₁.join a₁, op))
    have hop : step ⟨outer, left₁, .operand a₁⟩ (.mark op.mark) =
        some ⟨outer, some (left₁.join a₁, op), .start⟩ := by cases op <;> rfl
    refine ⟨left₂, a₂, ?_, ?_, nofun⟩
    · rw [Term.print, run_append, hrun₁, Option.bind_some, run_cons, hop, Option.bind_some, hrun₂]
    · rw [hjoin₂, hjoin₁, Term.attach]

end State

/-- Grouping gives a term exactly when it is leveled and has these tokens. -/
theorem group_eq_some_iff {kinds : List TokenKind} {t : Term} : group kinds = some t ↔ t.Leveled ∧ t.print = kinds := by
  constructor
  · exact leveled_of_group
  · rintro ⟨ht, rfl⟩
    obtain ⟨left, a, hrun, hjoin⟩ := (State.reads_of_leveled ht).whole ht []
    have hrun' : State.initial.run t.print = some ⟨[], left, .operand a⟩ := hrun
    rw [group, hrun']
    exact congrArg some hjoin

end Solidity

end ContractCompiler
