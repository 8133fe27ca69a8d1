import ContractCompiler.Proofs.Reading.ExpressionPhrases
import ContractCompiler.Reading.Items

/-!
# The extent of what is read

What was read took at least one token (`Took`), and where it has a span, that goes from the first token to the last one of
those it took (`Covers`). How a block, a member, a class and an item are read is said here once, as inversions of their parsers.
-/

namespace ContractCompiler

/-- The token after the cursor is at the cursor after the next step. -/
theorem ParserState.kind_next {s : ParserState} {k : TokenKind} (hs : s.here.kind ≠ .endOfInput) (hk : s.kindAt 1 = k)
    (hne : k ≠ .endOfInput) : s.next.here.kind = k := by
  unfold ParserState.next Cursor.advance Cursor.atEnd
  rw [if_neg (by simpa using hs)]
  cases hahead : s.ahead with
  | nil => simp [Cursor.kindAt, Cursor.tokenAt, hahead, hne.symm] at hk
  | cons t ts => simpa [Cursor.kindAt, Cursor.tokenAt, hahead] using hk

namespace Parser

variable {α β : Type} {start : Nat} {s s' : ParserState}

/-- At least one token lies between the two states. -/
def Took (s s' : ParserState) : Prop := ∃ ts, ts ≠ [] ∧ Passed s ts s'

/-- Something was read between the two states: at least one token, if the tokens end with the end of the input. -/
structure Consumed (s s' : ParserState) : Prop where
  passed : ∃ ts, Passed s ts s'
  took : s.Sealed → Took s s'

/-- The token at the cursor is taken. -/
theorem took_here (hs : s.Sealed) (hk : s.here.kind ≠ .endOfInput) : Took s s.next :=
  ⟨[s.here], by simp, passed_here hs hk⟩

/-- So something was read. -/
theorem consumed_here (hk : s.here.kind ≠ .endOfInput) : Consumed s s.next := ⟨passed_next s, fun hs => took_here hs hk⟩

/-- Tokens after what was read. -/
theorem Consumed.later {s₁ : ParserState} {ts : List Token} (h : Consumed s s₁) (hts : Passed s₁ ts s') : Consumed s s' := by
  obtain ⟨us, hus⟩ := h.passed
  refine ⟨⟨us ++ ts, hus.trans hts⟩, fun hs => ?_⟩
  obtain ⟨vs, hne, hvs⟩ := h.took hs
  exact ⟨vs ++ ts, by simp [hne], hvs.trans hts⟩

/-- Going on after something was read. -/
theorem Took.bind {p : Parser α} {q : α → Parser β} {b : β} (h : (p >>= q) s = .ok b s')
    (hp : ∀ a s₁, p s = .ok a s₁ → Took s s₁) : Took s s' := by
  obtain ⟨a, s₁, ha, h⟩ := bind_eq_ok.mp h
  obtain ⟨ts, hne, hts⟩ := hp a s₁ ha
  obtain ⟨us, hus⟩ := passed_of_ok h
  exact ⟨ts ++ us, by simp [hne], hts.trans hus⟩

/-- Going on after the token at the cursor. -/
theorem took_of_advance {q : Unit → Parser β} (hs : s.Sealed) (hk : s.here.kind ≠ .endOfInput)
    {b : β} (h : (advance >>= q) s = .ok b s') : Took s s' :=
  Took.bind h fun _ _ ha => by
    cases ha
    exact took_here hs hk

/-- What was read from `s` on took at least one token, and its span is that of the tokens it took. -/
def Covers (span : β → Span) (s : ParserState) (b : β) (s' : ParserState) : Prop :=
  ∃ ts, ts ≠ [] ∧ Passed s ts s' ∧ span b = spanTo s.here.span.start ts

/-- Whatever `p` reads takes at least one token, and its span is that of the tokens it took. -/
def Spans (p : Parser β) (span : β → Span) : Prop :=
  ∀ s s' b, s.Sealed → p s = .ok b s' → Covers span s b s'

/-! ## Names and annotations -/

/-- A name that was read is one token. -/
theorem passed_identBy {name? : TokenKind → Option String} (hend : name? .endOfInput = none) {what : Missing} {i : Ident}
    (hs : s.Sealed) (h : identBy name? what s = .ok i s') : ∃ t, Passed s [t] s' ∧ t.span = i.span := by
  obtain ⟨_, hts, t, name, rfl, -, rfl⟩ := (got_identBy hend hs h).loose
  exact ⟨t, hts, rfl⟩

/-! ## Blocks -/

/-- How a block is read: its statements after the opening brace. -/
theorem blockOf_eq_ok {inner : Parser Stmt} {b : Block} (h : blockOf inner s = .ok b s') :
    s.here.kind = .mark .lbrace ∧ stmtsUpToBrace inner s.next = .ok b.stmts s' ∧
      b.span = s'.spanFrom s.here.span.start := by
  rw [blockOf, run_here] at h
  obtain ⟨_, s₁, hopen, h⟩ := bind_eq_ok.mp h
  obtain ⟨hk, rfl⟩ := expect_eq_ok.mp hopen
  obtain ⟨stmts, s₂, hstmts, h⟩ := bind_eq_ok.mp h
  rw [run_spanFrom] at h
  obtain ⟨rfl, rfl⟩ := pure_eq_ok.mp h
  exact ⟨hk, hstmts, rfl⟩

/-! ## Members -/

/-- After the name of a member a `?` or a `!` may stand. -/
def Signed (s s' : ParserState) : Prop :=
  s' = s ∨ ((s.here.kind = .mark .question ∨ s.here.kind = .mark .bang) ∧ s' = s.next)

/-- A sign takes a token, or there is none. -/
theorem Signed.passed (h : Signed s s') : ∃ ts, Passed s ts s' := by
  rcases h with rfl | ⟨-, rfl⟩
  · exact ⟨[], Passed.refl s'⟩
  · exact passed_next s

/-- How a member is read after its decorators and modifiers: as an accessor, an index signature, a constructor, or from
its name on. -/
inductive ShapeRead (s : ParserState) : MemberShape → ParserState → Prop where
  | accessor {kind : AccessorKind} {name : Ident} {ps : List Param} {returns : Option TypeExpr} {b : Option Block}
      {s₁ s₂ s₃ s' : ParserState} : s.here.kind ≠ .endOfInput → declaredIdent .accessorName s.next = .ok name s₁ →
      params s₁.next = .ok ps s₂ → annotation s₂ = .ok returns s₃ → body s₃ = .ok b s' →
      ShapeRead s (.accessor kind name ps returns b) s'
  | indexSignature {key : Ident} {keyType valueType : TypeExpr} {s₁ s₂ s₃ s' : ParserState} :
      s.here.kind ≠ .endOfInput → bindingIdent .indexKey s.next = .ok key s₁ → typeExpr s₁.next = .ok keyType s₂ →
      typeExpr s₂.next.next = .ok valueType s₃ → (∃ ts, Passed s₃ ts s') →
      ShapeRead s (.indexSignature key keyType valueType) s'
  | constructor {ps : List Param} {b : Option Block} {s₁ s' : ParserState} : s.here.kind ≠ .endOfInput →
      params s.next.next = .ok ps s₁ → body s₁ = .ok b s' → ShapeRead s (.constructor ps b) s'
  | method {name : Ident} {ps : List Param} {returns : Option TypeExpr} {b : Option Block}
      {s₁ s₂ s₃ s₄ s₅ s' : ParserState} : declaredIdent .member s = .ok name s₁ → Signed s₁ s₂ →
      skipAngles s₂ = .ok () s₃ → s₃.here.kind = .mark .lparen → params s₃.next = .ok ps s₄ →
      annotation s₄ = .ok returns s₅ → body s₅ = .ok b s' → ShapeRead s (.method name ps returns b) s'
  | property {name : Ident} {type : Option TypeExpr} {init : Option Expr} {s₁ s₂ s₃ s₄ s' : ParserState} :
      declaredIdent .member s = .ok name s₁ → Signed s₁ s₂ → annotation s₂ = .ok type s₃ →
      after .eq expression s₃ = .ok init s₄ → (∃ ts, Passed s₄ ts s') → ShapeRead s (.property name type init) s'

/-- An accessor is read as one. -/
theorem shapeRead_accessor {kind : AccessorKind} {shape : MemberShape} (hk : s.here.kind ≠ .endOfInput)
    (h : accessor kind s = .ok shape s') : ShapeRead s shape s' := by
  rw [accessor, run_advance] at h
  obtain ⟨name, s₁, hname, h⟩ := bind_eq_ok.mp h
  obtain ⟨_, _, hopen, h⟩ := bind_eq_ok.mp h
  obtain ⟨-, rfl⟩ := expect_eq_ok.mp hopen
  obtain ⟨ps, s₂, hps, h⟩ := bind_eq_ok.mp h
  obtain ⟨returns, s₃, hreturns, h⟩ := bind_eq_ok.mp h
  obtain ⟨b, s₄, hb, h⟩ := bind_eq_ok.mp h
  obtain ⟨rfl, rfl⟩ := pure_eq_ok.mp h
  exact .accessor hk hname hps hreturns hb

/-- An index signature is read as one. -/
theorem shapeRead_indexSignature {shape : MemberShape} (hk : s.here.kind ≠ .endOfInput)
    (h : indexSignature s = .ok shape s') : ShapeRead s shape s' := by
  rw [indexSignature, run_advance] at h
  obtain ⟨key, s₁, hkey, h⟩ := bind_eq_ok.mp h
  obtain ⟨_, _, hcolon, h⟩ := bind_eq_ok.mp h
  obtain ⟨-, rfl⟩ := expect_eq_ok.mp hcolon
  obtain ⟨keyType, s₂, hkeyType, h⟩ := bind_eq_ok.mp h
  obtain ⟨_, _, hclose, h⟩ := bind_eq_ok.mp h
  obtain ⟨-, rfl⟩ := expect_eq_ok.mp hclose
  obtain ⟨_, _, hcolon, h⟩ := bind_eq_ok.mp h
  obtain ⟨-, rfl⟩ := expect_eq_ok.mp hcolon
  obtain ⟨valueType, s₃, hvalueType, h⟩ := bind_eq_ok.mp h
  obtain ⟨_, s₄, hend, h⟩ := bind_eq_ok.mp h
  obtain ⟨rfl, rfl⟩ := pure_eq_ok.mp h
  exact .indexSignature hk hkey hkeyType hvalueType (passed_of_ok hend)

/-- The sign after the name of a member. -/
theorem signed_of_ok {q : Parser β} {b : β}
    (h : (accept .question >>= fun found => if found = true then q else discard (accept .bang) >>= fun _ => q) s =
      .ok b s') : ∃ s₁, Signed s s₁ ∧ q s₁ = .ok b s' := by
  rw [run_accept] at h
  split at h
  · rename_i hk
    rw [if_pos rfl] at h
    exact ⟨s.next, .inr ⟨.inl hk, rfl⟩, h⟩
  · rw [if_neg Bool.false_ne_true] at h
    obtain ⟨_, s₁, hbang, hq⟩ := bind_eq_ok.mp h
    obtain ⟨_, hbang, -⟩ := map_eq_ok.mp hbang
    rcases acceptKind_eq_ok.mp hbang with ⟨hk, -, rfl⟩ | ⟨-, -, rfl⟩
    · exact ⟨s.next, .inr ⟨.inr hk, rfl⟩, hq⟩
    · exact ⟨s₁, .inl rfl, hq⟩

/-- What starts with its name is a method if parameters follow, and a property otherwise. -/
theorem shapeRead_namedMember {shape : MemberShape} (h : namedMember s = .ok shape s') : ShapeRead s shape s' := by
  unfold namedMember at h
  dsimp only at h
  obtain ⟨name, s₁, hname, h⟩ := bind_eq_ok.mp h
  obtain ⟨s₂, hsigned, h⟩ := signed_of_ok h
  rw [run_check, run_check] at h
  split at h
  · obtain ⟨_, s₃, hangles, h⟩ := bind_eq_ok.mp h
    obtain ⟨_, _, hopen, h⟩ := bind_eq_ok.mp h
    obtain ⟨hk, rfl⟩ := expect_eq_ok.mp hopen
    obtain ⟨ps, s₄, hps, h⟩ := bind_eq_ok.mp h
    obtain ⟨returns, s₅, hreturns, h⟩ := bind_eq_ok.mp h
    obtain ⟨b, s₆, hb, h⟩ := bind_eq_ok.mp h
    obtain ⟨rfl, rfl⟩ := pure_eq_ok.mp h
    exact .method hname hsigned hangles hk hps hreturns hb
  · obtain ⟨type, s₃, htype, h⟩ := bind_eq_ok.mp h
    obtain ⟨init, s₄, hinit, h⟩ := bind_eq_ok.mp h
    obtain ⟨_, s₅, hend, h⟩ := bind_eq_ok.mp h
    obtain ⟨rfl, rfl⟩ := pure_eq_ok.mp h
    exact .property hname hsigned htype hinit (passed_of_ok hend)

/-- A member is read in one of these ways. -/
theorem memberShape_eq_ok {shape : MemberShape} (h : memberShape s = .ok shape s') : ShapeRead s shape s' := by
  rw [memberShape, run_kindAt, run_here] at h
  generalize hk : s.here.kind = k at h
  split at h
  · split at h
    · exact shapeRead_accessor (by simp [hk]) h
    · exact shapeRead_namedMember h
  · split at h
    · exact shapeRead_accessor (by simp [hk]) h
    · exact shapeRead_namedMember h
  · exact shapeRead_indexSignature (by simp [hk]) h
  · split at h
    · rw [run_advanceTwice] at h
      obtain ⟨ps, s₁, hps, h⟩ := bind_eq_ok.mp h
      obtain ⟨b, s₂, hb, h⟩ := bind_eq_ok.mp h
      obtain ⟨rfl, rfl⟩ := pure_eq_ok.mp h
      exact .constructor (by simp [hk]) hps hb
    · exact shapeRead_namedMember h
  · exact shapeRead_namedMember h

/-! ## Classes and items -/

/-- How a class declaration is read: its name after the word at the cursor, type parameters, its base class, the rest of
the header, and the body from the opening brace on. That it was read is noted. -/
theorem classDecl_eq_ok {decs : List Decorator} {isAbstract : Bool} {c : ClassDecl}
    (h : classDecl decs isAbstract start s = .ok c s') :
    ∃ s₁ s₂ s₃ s₄ s₅, bindingIdent .className s.next = .ok c.name s₁ ∧ skipAngles s₁ = .ok () s₂ ∧
      baseClass s₂ = .ok c.base s₃ ∧ skip Cursor.headerStep () s₃ = .ok () s₄ ∧ s₄.here.kind = .mark .lbrace ∧
      members s₄.next = .ok c.members s₅ ∧ c.decorators = decs ∧ c.span = s'.spanFrom start ∧
      s' = { s₅ with journal := s₅.journal ++ [.parsedClass c.name.name c.members.length] } := by
  rw [classDecl, run_advance] at h
  obtain ⟨name, s₁, hname, h⟩ := bind_eq_ok.mp h
  obtain ⟨_, s₂, hangles, h⟩ := bind_eq_ok.mp h
  obtain ⟨base, s₃, hbase, h⟩ := bind_eq_ok.mp h
  obtain ⟨_, s₄, hheader, h⟩ := bind_eq_ok.mp h
  obtain ⟨_, _, hopen, h⟩ := bind_eq_ok.mp h
  obtain ⟨hk, rfl⟩ := expect_eq_ok.mp hopen
  obtain ⟨ms, s₅, hms, h⟩ := bind_eq_ok.mp h
  obtain ⟨_, s₆, hnote, h⟩ := bind_eq_ok.mp h
  cases hnote
  rw [run_spanFrom] at h
  obtain ⟨rfl, rfl⟩ := pure_eq_ok.mp h
  exact ⟨s₁, s₂, s₃, s₄, s₅, hname, hangles, hbase, hheader, hk, hms, rfl, rfl, rfl⟩

/-- How an item is read once its decorators and the word `export` are: a class from the word `class` on, an import without
decorators, or anything else, which is skipped. -/
inductive ItemRead (decs : List Decorator) (start : Nat) (s : ParserState) : ItemShape → ParserState → Prop where
  | class_ {isAbstract : Bool} {c : ClassDecl} {s' : ParserState} : s.here.kind = .keyword .class_ →
      classDecl decs isAbstract start s = .ok c s' → ItemRead decs start s (.class_ c) s'
  | import_ {d : Import} {s' : ParserState} : decs = [] → s.here.kind = .keyword .import_ → importDecl s = .ok d s' →
      ItemRead decs start s (.import_ d) s'
  | other {s' : ParserState} : skip Cursor.otherStep .fresh s = .ok () s' → ItemRead decs start s .other s'

/-- The span of an item is taken where its shape was read. -/
theorem shape_of_item {exported : Bool} {start : Nat} {p : Parser ItemShape} {i : Item}
    (h : (do let shape ← p; return (⟨exported, shape, ← spanFrom start⟩ : Item)) s = .ok i s') :
    p s = .ok i.shape s' ∧ i.span = s'.spanFrom start := by
  obtain ⟨shape, s₁, hp, h⟩ := bind_eq_ok.mp h
  rw [run_spanFrom] at h
  obtain ⟨rfl, rfl⟩ := pure_eq_ok.mp h
  exact ⟨hp, rfl⟩

/-- An item that is neither a class nor an import is skipped. -/
theorem other_of_item {exported : Bool} {decs : List Decorator} {start : Nat} {i : Item}
    (h : (do
      skip Cursor.otherStep .fresh
      let shape ← pure ItemShape.other
      return (⟨exported, shape, ← spanFrom start⟩ : Item)) s = .ok i s') :
    ItemRead decs start s i.shape s' ∧ i.span = s'.spanFrom start := by
  obtain ⟨_, s₁, hskip, h⟩ := bind_eq_ok.mp h
  obtain ⟨hshape, hspan⟩ := shape_of_item h
  obtain ⟨heq, rfl⟩ := pure_eq_ok.mp hshape
  rw [← heq]
  exact ⟨.other hskip, hspan⟩

/-- How an item is read: its decorators, the word `export`, and what it is. -/
theorem item_eq_ok {i : Item} (h : item s = .ok i s') :
    ∃ decs s₁ ts s₂, decorators s = .ok decs s₁ ∧ Passed s₁ ts s₂ ∧ ItemRead decs s.here.span.start s₂ i.shape s' ∧
      i.span = s'.spanFrom s.here.span.start := by
  rw [item, run_here] at h
  obtain ⟨decs, s₁, hdecs, h⟩ := bind_eq_ok.mp h
  obtain ⟨exported, s₂, hexported, h⟩ := bind_eq_ok.mp h
  obtain ⟨ts, hts⟩ := passed_of_ok hexported
  dsimp only at h
  obtain ⟨us, s₃, hus, h⟩ := passed_of_skipIf h
  have hpassed := hts.trans hus
  rw [run_kindAt, run_here] at h
  generalize hk : s₃.here.kind = k at h
  split at h
  · obtain ⟨hshape, hspan⟩ := shape_of_item h
    obtain ⟨c, hdecl, heq⟩ := map_eq_ok.mp hshape
    rw [← heq]
    exact ⟨decs, s₁, _, s₃, hdecs, hpassed, .class_ hk hdecl, hspan⟩
  · by_cases hnext : s₃.kindAt 1 = .keyword .class_
    · rw [if_pos hnext, run_advance] at h
      obtain ⟨hshape, hspan⟩ := shape_of_item h
      obtain ⟨c, hdecl, heq⟩ := map_eq_ok.mp hshape
      obtain ⟨vs, hvs⟩ := passed_next s₃
      rw [← heq]
      refine ⟨decs, s₁, _, s₃.next, hdecs, hpassed.trans hvs, .class_ ?_ hdecl, hspan⟩
      exact s₃.kind_next (by rw [hk]; simp) hnext (by simp)
    · rw [if_neg hnext] at h
      exact ⟨decs, s₁, _, s₃, hdecs, hpassed, other_of_item h⟩
  · split at h
    · rename_i hplain
      obtain ⟨hshape, hspan⟩ := shape_of_item h
      obtain ⟨d, hdecl, heq⟩ := map_eq_ok.mp hshape
      rw [← heq]
      refine ⟨decs, s₁, _, s₃, hdecs, hpassed, .import_ ?_ hk hdecl, hspan⟩
      simpa using (Bool.and_eq_true_iff.mp hplain).2
    · exact ⟨decs, s₁, _, s₃, hdecs, hpassed, other_of_item h⟩
  · exact ⟨decs, s₁, _, s₃, hdecs, hpassed, other_of_item h⟩

/-- Skipping that does not leave the token at the cursor takes it. -/
theorem took_skip {σ : Type} {step : σ → TokenKind → Skip σ} {state : σ} (hs : s.Sealed)
    (hk : s.here.kind ≠ .endOfInput) (hstep : step state s.here.kind ≠ .leave) {u : Unit}
    (h : skip step state s = .ok u s') : Took s s' := by
  obtain ⟨ts, hskips⟩ := skips_of_skip hs h
  refine ⟨ts, ?_, hskips.passed hs⟩
  cases hskips with
  | ended hend => exact absurd hend hk
  | left _ hleave => exact absurd hleave hstep
  | last | took => simp

/-- What is skipped as another item takes at least one token. -/
theorem took_skipOther (hs : s.Sealed) (hk : s.here.kind ≠ .endOfInput) {u : Unit}
    (h : skip Cursor.otherStep .fresh s = .ok u s') : Took s s' := by
  refine took_skip hs hk ?_ h
  rw [Cursor.otherStep, Cursor.otherTake.eq_def]
  split <;> (try split) <;> simp

namespace ItemRead

variable {decs : List Decorator} {shape : ItemShape}

/-- An item is read over the tokens between its two states. -/
theorem passed (h : ItemRead decs start s shape s') : ∃ ts, Passed s ts s' := by
  cases h with
  | class_ _ h => exact passed_of_ok h
  | import_ _ _ h => exact passed_of_ok h
  | other h => exact passed_of_ok h

/-- Before the end of the input an item takes at least one token, whatever it is. -/
theorem took (h : ItemRead decs start s shape s') (hs : s.Sealed) (hk : s.here.kind ≠ .endOfInput) : Took s s' := by
  cases h with
  | class_ _ h => exact took_of_advance hs hk h
  | import_ _ _ h => exact took_of_advance hs hk h
  | other h => exact took_skipOther hs hk h

end ItemRead

end Parser

end ContractCompiler
