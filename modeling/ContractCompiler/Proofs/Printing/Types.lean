import ContractCompiler.Proofs.Printing.Retracing

/-!
# Writing and reading back annotations

`TypeExpr.print` writes an annotation as the kinds of its tokens. A union that stands in an array or in another union is put in
parentheses, which leave no trace in the tree. An annotation that can be written is read back where nothing continues it.
-/

namespace ContractCompiler

open ContractCompiler.Parser

/-! ## Tokens of an annotation -/

/-- The kind of the token that spells a type keyword. -/
def TypeKeyword.kind : TypeKeyword → TokenKind
  | .number => .keyword .number
  | .string => .keyword .string
  | .boolean => .keyword .boolean
  | .any => .keyword .any
  | .void => .keyword .void

/-- A type keyword is read back from its token. -/
theorem TypeKeyword.typeKeyword?_kind (word : TypeKeyword) : word.kind.typeKeyword? = some word := by
  cases word <;> rfl

/-- A text in parentheses. -/
def TokenKind.parens (ks : List TokenKind) : List TokenKind := .mark .lparen :: (ks ++ [.mark .rparen])

/-- The kinds of the tokens of a dotted name. The parts after the first one may be quoted. -/
def TokenKind.dotted : List Ident → List TokenKind
  | [] => []
  | first :: more => .ofWord first.name :: more.flatMap fun i => [.mark .dot, .ofKey i.name]

namespace TypeExpr

/-- Whether the annotation is a union. -/
def isUnion : TypeExpr → Bool
  | .union .. => true
  | _ => false

/-- The text of an annotation where it is an element of an array or a member of a union. -/
def enclose (t : TypeExpr) (ks : List TokenKind) : List TokenKind := if t.isUnion then TokenKind.parens ks else ks

mutual

/-- The kinds of the tokens of an annotation. -/
def print : TypeExpr → List TokenKind
  | .keyword _ word => [word.kind]
  | .named _ path [] => TokenKind.dotted path
  | .named _ path (arg :: args) =>
    TokenKind.dotted path ++ .mark .lt :: (TokenKind.commas (arg.print :: printAll args) ++ [.mark .gt])
  | .array _ elem => elem.enclose elem.print ++ [.mark .lbracket, .mark .rbracket]
  | .union _ [] => []
  | .union _ (first :: more) => first.enclose first.print ++ printMembers more

/-- The kinds of the tokens of several annotations. -/
def printAll : List TypeExpr → List (List TokenKind)
  | [] => []
  | t :: ts => t.print :: printAll ts

/-- The kinds of the tokens of the members of a union after the first one. -/
def printMembers : List TypeExpr → List TokenKind
  | [] => []
  | t :: ts => .mark .pipe :: t.enclose t.print ++ printMembers ts

end

/-- The kinds of the tokens of an annotation as an element of an array or a member of a union. -/
def operand (t : TypeExpr) : List TokenKind := t.enclose t.print

/-- Several annotations are written one by one. -/
theorem printAll_eq_map (ts : List TypeExpr) : printAll ts = ts.map print := by
  induction ts with
  | nil => rfl
  | cons t ts ih => rw [printAll, ih, List.map_cons]

/-- Each member of a union but the first stands behind a bar. -/
theorem printMembers_eq_flatMap (ts : List TypeExpr) :
    printMembers ts = ts.flatMap fun t => .mark .pipe :: t.operand := by
  induction ts with
  | nil => rfl
  | cons t ts ih => rw [printMembers, ih, List.flatMap_cons, operand]

/-- Several annotations lose their spans one by one. -/
theorem eraseAll_eq_map (ts : List TypeExpr) : eraseAll ts = ts.map erase := by
  induction ts with
  | nil => rfl
  | cons t ts ih => rw [eraseAll, ih, List.map_cons]

/-- Whether a name may start a type name, and is not taken for a type keyword. -/
def isTypeName (name : String) : Bool :=
  (TokenKind.ofWord name).typeName? == some name && (TokenKind.ofWord name).typeKeyword?.isNone

/-- The annotation can be written: its names are type names, and its unions have at least two members. -/
inductive Printable : TypeExpr → Prop where
  | keyword (span : Span) (word : TypeKeyword) : Printable (.keyword span word)
  | named {span : Span} {first : Ident} {more : List Ident} {args : List TypeExpr} :
      isTypeName first.name = true → (∀ a ∈ args, a.Printable) → Printable (.named span (first :: more) args)
  | array {span : Span} {elem : TypeExpr} : elem.Printable → Printable (.array span elem)
  | union {span : Span} {first second : TypeExpr} {more : List TypeExpr} :
      (∀ t ∈ first :: second :: more, t.Printable) → Printable (.union span (first :: second :: more))

end TypeExpr

/-! ## Where an annotation ends -/

namespace TokenKind

/-- The token does not continue a type name. -/
def StopsName (k : TokenKind) : Prop := k ∉ [.mark .dot, .mark .lt]

/-- The token does not continue an annotation. -/
def StopsType (k : TokenKind) : Prop := k ∉ [.mark .dot, .mark .lt, .mark .lbracket, .mark .pipe]

instance (k : TokenKind) : Decidable k.StopsName := inferInstanceAs (Decidable (¬ _))

instance (k : TokenKind) : Decidable k.StopsType := inferInstanceAs (Decidable (¬ _))

/-- Whether an annotation may start with a token of this kind. -/
def opensType (k : TokenKind) : Bool := k.typeKeyword?.isSome || k.typeName?.isSome || k == .mark .lparen

/-- What does not continue an annotation continues no name, no array and no union. -/
theorem StopsType.cases {k : TokenKind} (h : k.StopsType) : k.StopsName ∧ k ≠ .mark .lbracket ∧ k ≠ .mark .pipe := by
  simp only [StopsType, StopsName, List.mem_cons, List.not_mem_nil, or_false, not_or] at h ⊢
  exact ⟨⟨h.1, h.2.1⟩, h.2.2⟩

/-- A key is not the end of the input. -/
theorem ofKey_ne_end (name : String) : ofKey name ≠ .endOfInput := by
  intro h
  have hname := declaredName?_ofKey name
  rw [h] at hname
  cases hname

/-- A token that starts an annotation is none that does not. -/
theorem ne_of_opensType {k : TokenKind} (h : k.opensType = true) {l : TokenKind} (hl : l.opensType = false) : k ≠ l := by
  rintro rfl
  rw [h] at hl
  cases hl

end TokenKind

/-! ## Reading annotations back -/

/-- One more pair of brackets after the element type. -/
def Parser.arrayStep (start : Nat) (type : TypeExpr) : Parser (Option TypeExpr) := do
  if (← check (.mark .lbracket)) && (← kindAt 1) = .mark .rbracket then
    advanceBy 2
    return some (.array (← spanFrom start) type)
  else return none

/-- An array type is an element type with pairs of brackets behind it. -/
theorem arrayType_eq (inner : Parser TypeExpr) : arrayType inner = (do
    let start := (← here).span.start
    let elem ← primaryType inner
    chain (arrayStep start) elem) := rfl

namespace TypeExpr

/-- The annotation is met as something to which brackets may be added. -/
def FollowsElem (t : TypeExpr) : Prop :=
  ∀ ⦃n : Nat⦄ ⦃s s' : ParserState⦄, Spelled s t.operand s' → s.ahead.length ≤ n → s'.here.kind.StopsName →
    ∃ t' m, s'.ahead.length < m ∧
      arrayType (typeWithin n) s = chainUpTo (arrayStep s.here.span.start) m t' s' ∧ t'.erase = t.erase

/-- The annotation is read back, as a whole and as a part of an array or a union. -/
structure Legible (t : TypeExpr) : Prop where
  opening : ∃ k, t.print.head? = some k ∧ k.opensType = true
  elem : t.FollowsElem
  whole : ∀ n s', s'.here.kind.StopsType → Retraces n (typeWithin n) t.print s' fun t' => t'.erase = t.erase

/-- The tokens of an operand start as those of an annotation may. -/
theorem operand_opening {t : TypeExpr} (h : t.Legible) : ∃ k, t.operand.head? = some k ∧ k.opensType = true := by
  unfold operand enclose
  split
  · exact ⟨.mark .lparen, rfl, rfl⟩
  · exact h.opening

/-- A primary annotation is an element by itself. -/
theorem FollowsElem.of_primary {t : TypeExpr} (h : ∀ ⦃n : Nat⦄ ⦃s s' : ParserState⦄, Spelled s t.operand s' →
    s.ahead.length ≤ n → s'.here.kind.StopsName → ∃ t', primaryType (typeWithin n) s = .ok t' s' ∧ t'.erase = t.erase) :
    t.FollowsElem := by
  intro n s s' hs hn hstops
  obtain ⟨t', ht', heq⟩ := h hs hn hstops
  refine ⟨t', s'.ahead.length + 1, Nat.lt_succ_self _, ?_, heq⟩
  rw [arrayType_eq, run_here, bind_of_ok ht']
  rfl

/-- Where no bracket stands none is added. -/
theorem arrayStep_of_ne {start : Nat} {t : TypeExpr} {s : ParserState} (h : s.here.kind ≠ .mark .lbracket) :
    arrayStep start t s = .ok none s := by
  rw [arrayStep, run_check, decide_eq_false h]
  rfl

/-- An element is an array type where no brackets follow. -/
theorem FollowsElem.arrayType {t : TypeExpr} (h : t.FollowsElem) {n : Nat} {s' : ParserState}
    (hstops : s'.here.kind.StopsName) (hbracket : s'.here.kind ≠ .mark .lbracket) :
    Retraces (n + 1) (arrayType (typeWithin n)) t.operand s' fun t' => t'.erase = t.erase := by
  intro s hs hn
  obtain ⟨t', m, hm, hrun, heq⟩ := h hs (Nat.le_of_lt_succ hn) hstops
  exact ⟨t', by rw [hrun, chainUpTo_of_none (arrayStep_of_ne hbracket) (Nat.zero_lt_of_lt hm)], heq⟩

variable {span : Span}

/-- What is no union need only be met as an element. -/
theorem Legible.of_elem {t : TypeExpr} (hunion : t.isUnion = false)
    (hopen : ∃ k, t.print.head? = some k ∧ k.opensType = true) (h : t.FollowsElem) : t.Legible where
  opening := hopen
  elem := h
  whole n s' hstops := by
    obtain ⟨k, hk, hopens⟩ := hopen
    have hprint : t.operand = t.print := by simp [operand, enclose, hunion]
    cases n with
    | zero => exact fun s _ hn => absurd hn (Nat.not_lt_zero _)
    | succ n =>
      obtain ⟨hname, hbracket, hpipe⟩ := hstops.cases
      refine .here fun token _ => .without ?_ (.last ?_ fun t' ht' => .checkElse hpipe (.pure ht'))
      · rw [TokenKind.first_of_head? hk]
        exact TokenKind.ne_of_opensType hopens rfl
      · rw [← hprint]
        exact h.arrayType hname hbracket

/-- A type keyword is read back. -/
theorem legible_keyword (word : TypeKeyword) : (TypeExpr.keyword span word).Legible := by
  refine .of_elem rfl ⟨word.kind, rfl, ?_⟩ (.of_primary fun n s s' hs hn _ => ?_)
  · rw [TokenKind.opensType, word.typeKeyword?_kind]
    rfl
  · have hs : Spelled s [word.kind] s' := hs
    rw [primaryType, run_here, hs.here, word.typeKeyword?_kind]
    refine ⟨.keyword s.here.span word, ?_, rfl⟩
    dsimp only
    rw [run_advance, hs.eq_next (by cases word <;> simp [TypeKeyword.kind])]
    rfl

/-- An array type is read back if its element type is. -/
theorem legible_array {elem : TypeExpr} (h : elem.Legible) : (TypeExpr.array span elem).Legible := by
  refine .of_elem rfl ?_ fun n s s' hs hn hstops => ?_
  · obtain ⟨k, hk, hopens⟩ := operand_opening h
    exact ⟨k, by rw [print, List.head?_append, ← operand, hk, Option.some_or], hopens⟩
  · have hs : Spelled s (elem.operand ++ [TokenKind.mark .lbracket, .mark .rbracket]) s' := hs
    obtain ⟨s₁, hs₁, hs'⟩ := hs.split _
    obtain ⟨t', m, hm, hrun, heq⟩ := h.elem hs₁ hn (by rw [hs'.here]; decide)
    obtain ⟨m, rfl⟩ := Nat.exists_eq_add_one_of_ne_zero (Nat.ne_zero_of_lt hm)
    have hlength := hs'.length_ahead
    have hstep : arrayStep s.here.span.start t' s₁ = .ok (some (.array (s'.spanFrom s.here.span.start) t')) s' := by
      have hend : s₁.next.next = s' := ((hs'.next (by simp)).eq_next (by simp)).symm
      rw [arrayStep, run_check, decide_eq_true hs'.here, run_kindAt, hs'.kindAt (n := 1) rfl]
      show (advanceBy 2 >>= _) s₁ = _
      rw [run_advanceTwice, hend]
      rfl
    refine ⟨_, m, ?_, by rw [hrun, chainUpTo_of_some hstep], ?_⟩
    · simp only [List.length_cons, List.length_nil] at hlength
      omega
    · rw [erase, erase, heq]

/-- The members of a union after the first one. -/
theorem retraces_members {ts : List TypeExpr} (h : ∀ t ∈ ts, t.Legible) {n : Nat} {s' : ParserState}
    (hstops : s'.here.kind.StopsType) : Retraces (n + 1) (collect do
      if ← accept .pipe then return ([← arrayType (typeWithin n)], true) else return ([], false))
      (ts.flatMap fun t => .mark .pipe :: t.operand) s' fun us => us.map erase = ts.map erase := by
  obtain ⟨hname, hbracket, hpipe⟩ := hstops.cases
  rw [← List.append_nil (ts.flatMap _)]
  refine .collect (fun k => k.StopsName ∧ k ≠ .mark .lbracket) (fun t _ => ⟨.mark .pipe, rfl, by decide⟩) ⟨hname, hbracket⟩
    (fun t ht s₁ hs₁ => ?_) (.acceptElse hpipe (.pure rfl))
  exact .acceptThen (by simp) (.last ((h t ht).elem.arrayType hs₁.1 hs₁.2) fun t' ht' => .pure ⟨t', rfl, ht'⟩)

/-- A union is read back if its members are. -/
theorem legible_union {first second : TypeExpr} {more : List TypeExpr} (h : ∀ t ∈ first :: second :: more, t.Legible) :
    (TypeExpr.union span (first :: second :: more)).Legible := by
  obtain ⟨hfirst, hmore⟩ := List.forall_mem_cons.mp h
  obtain ⟨k, hk, hopens⟩ := operand_opening hfirst
  have hopen : (TypeExpr.union span (first :: second :: more)).print.head? = some k := by
    rw [print, List.head?_append, ← operand, hk, Option.some_or]
  have hwhole : ∀ n s', s'.here.kind.StopsType → Retraces n (typeWithin n)
      (TypeExpr.union span (first :: second :: more)).print s' fun t' =>
        t'.erase = (TypeExpr.union span (first :: second :: more)).erase := by
    intro n s' hstops
    cases n with
    | zero => exact fun s _ hn => absurd hn (Nat.not_lt_zero _)
    | succ n =>
      have hpipe : TokenKind.first (TypeExpr.union span (first :: second :: more)).print s' ≠ .mark .pipe := by
        rw [TokenKind.first_of_head? hopen]
        exact TokenKind.ne_of_opensType hopens rfl
      refine .here fun token _ => .without hpipe ?_
      rw [print, ← operand, printMembers_eq_flatMap]
      refine .before (fun s₁ hs₁ => hfirst.elem.arrayType (by rw [hs₁]; decide) (by rw [hs₁]; decide)) fun t' ht' => ?_
      refine .checkThen (.last (retraces_members hmore hstops) fun us hus => .spanFrom fun span' => .pure ?_)
      rw [erase, erase, eraseAll_eq_map, eraseAll_eq_map, List.map_cons, List.map_cons, ht', hus]
  refine ⟨⟨k, hopen, hopens⟩, .of_primary fun n s s' hs hn _ => ?_, hwhole⟩
  -- In parentheses the union is a whole annotation again.
  have hparens : Retraces (n + 1) (primaryType (typeWithin n))
      (TokenKind.parens (TypeExpr.union span (first :: second :: more)).print) s' fun t' =>
        t'.erase = (TypeExpr.union span (first :: second :: more)).erase := by
    refine .here fun token htoken => ?_
    rw [htoken]
    exact .acceptThen_succ (by simp)
      (.before (fun s₁ hs₁ => hwhole n s₁ (by rw [hs₁]; decide)) fun t' ht' => .expect (.pure ht'))
  exact hparens s hs (Nat.lt_succ_of_le hn)

/-- The parts of a dotted name are read back. -/
theorem retraces_dotted {first : Ident} {more : List Ident} {what : Missing} {n : Nat} {s' : ParserState}
    (hdot : s'.here.kind ≠ .mark .dot) :
    Retraces n (dottedFrom first what) (more.flatMap fun i => [.mark .dot, .ofKey i.name]) s' fun path =>
      path.map Ident.erase = first.erase :: more.map Ident.erase := by
  have hmore : Retraces n (collect do
      if ← accept .dot then return ([← declaredIdent what], true) else return ([], false))
      ((more.flatMap fun i => [TokenKind.mark .dot, .ofKey i.name]) ++ []) s' fun is => is.map Ident.erase = more.map Ident.erase := by
    refine .collect (fun _ => True) (fun i _ => ⟨.mark .dot, rfl, trivial⟩) trivial (fun i _ s₁ _ => ?_)
      (.acceptElse hdot (.pure rfl))
    refine .acceptThen (by simp) (.identBy (TokenKind.declaredName?_ofKey i.name) (TokenKind.ofKey_ne_end _) fun j hj => ?_)
    exact .pure ⟨j, rfl, by rw [Ident.erase, Ident.erase, hj]⟩
  rw [List.append_nil] at hmore
  exact .last hmore fun is his => .pure (by rw [List.map_cons, his])

/-- The arguments of a type, up to the closing bracket. -/
theorem retraces_typeArgs {args : List TypeExpr} (hne : args ≠ []) (hargs : ∀ a ∈ args, a.Legible) {separator : Missing}
    {n : Nat} {s' : ParserState} :
    Retraces n (someUpTo .gt separator (typeWithin n)) (TokenKind.commas (args.map print) ++ [TokenKind.mark .gt]) s' fun bs =>
      bs.map erase = args.map erase := by
  refine .separated hne (fun a ha => ?_) fun a ha s₁ => ?_
  · exact .before (fun s₁ hs₁ => (hargs a ha).whole n s₁ (by rw [hs₁]; decide)) fun b hb =>
      .acceptThen (by simp) (.pure ⟨b, rfl, hb⟩)
  · exact .before (fun s₁ hs₁ => (hargs a ha).whole n s₁ (by rw [hs₁]; decide)) fun b hb =>
      .acceptElse (by simp [TokenKind.first]) (.expect (.pure ⟨b, rfl, hb⟩))

/-- A type name is read back with its arguments. -/
theorem retraces_namedType {first : Ident} {more : List Ident} {args : List TypeExpr}
    (hname : (TokenKind.ofWord first.name).typeName? = some first.name) (hargs : ∀ a ∈ args, a.Legible) {n : Nat}
    {s' : ParserState} (hstops : s'.here.kind.StopsName) :
    Retraces (n + 1) (namedType (typeWithin n)) (TypeExpr.named span (first :: more) args).print s' fun t' =>
      t'.erase = (TypeExpr.named span (first :: more) args).erase := by
  simp only [TokenKind.StopsName, List.mem_cons, List.not_mem_nil, or_false, not_or] at hstops
  have herase : ∀ {i : Ident} {path : List Ident} {args' : List TypeExpr} (span' : Span), i.name = first.name →
      path.map Ident.erase = i.erase :: more.map Ident.erase → args'.map erase = args.map erase →
        (TypeExpr.named span' path args').erase = (TypeExpr.named span (first :: more) args).erase := by
    intro i path args' span' hi hpath hargs
    rw [erase, erase, eraseAll_eq_map, eraseAll_eq_map, hargs, hpath, List.map_cons, Ident.erase, hi]
    rfl
  cases args with
  | nil =>
    rw [print]
    refine .identBy hname (TokenKind.ofWord_ne_end _) fun i hi => .last (retraces_dotted hstops.1) fun path hpath => ?_
    refine .acceptElse hstops.2 (.last (P := fun args' => args' = []) (.pure rfl) fun args' hargs' => .spanFrom fun span' => ?_)
    exact .pure (herase span' hi hpath (by rw [hargs']))
  | cons arg args =>
    rw [print, printAll_eq_map, ← List.map_cons]
    refine .identBy hname (TokenKind.ofWord_ne_end _) fun i hi => ?_
    refine .before (fun s₁ hs₁ => retraces_dotted (by rw [hs₁]; simp)) fun path hpath => ?_
    refine .acceptThen_succ (by simp) (.last (retraces_typeArgs (by simp) hargs) fun args' hargs' => .spanFrom fun span' => ?_)
    exact .pure (herase span' hi hpath hargs')

theorem legible_named {first : Ident} {more : List Ident} {args : List TypeExpr} (hname : isTypeName first.name = true)
    (hargs : ∀ a ∈ args, a.Legible) : (TypeExpr.named span (first :: more) args).Legible := by
  obtain ⟨htype, hword⟩ := Bool.and_eq_true_iff.mp hname
  have htype := eq_of_beq htype
  have hopen : (TypeExpr.named span (first :: more) args).print.head? = some (.ofWord first.name) := by
    cases args <;> rfl
  have hparen : TokenKind.ofWord first.name ≠ .mark .lparen := by
    intro h
    rw [h] at htype
    cases htype
  refine .of_elem rfl ⟨_, hopen, by simp [TokenKind.opensType, htype]⟩ (.of_primary fun n s s' hs hn hstops => ?_)
  have hprimary : Retraces (n + 1) (primaryType (typeWithin n)) (TypeExpr.named span (first :: more) args).print s' fun t' =>
      t'.erase = (TypeExpr.named span (first :: more) args).erase := by
    refine .here fun token htoken => ?_
    rw [TokenKind.first_of_head? hopen] at htoken
    rw [htoken, Option.isNone_iff_eq_none.mp hword]
    refine .acceptElse ?_ (retraces_namedType htype hargs hstops)
    rwa [TokenKind.first_of_head? hopen]
  exact hprimary s hs (Nat.lt_succ_of_le hn)

/-- An annotation that can be written is read back. -/
theorem Printable.legible {t : TypeExpr} (h : t.Printable) : t.Legible := by
  induction h with
  | keyword span word => exact legible_keyword word
  | named hname _ ih => exact legible_named hname ih
  | array _ ih => exact legible_array ih
  | union _ ih => exact legible_union ih

/-- An annotation that can be written is read back, where nothing continues it. -/
theorem Printable.retraces {t : TypeExpr} (h : t.Printable) {n : Nat} {s' : ParserState} (hstops : s'.here.kind.StopsType) :
    Retraces n typeExpr t.print s' fun t' => t'.erase = t.erase :=
  fun s hs _ => h.legible.whole _ s' hstops s hs (Nat.lt_succ_self _)

end TypeExpr

end ContractCompiler
