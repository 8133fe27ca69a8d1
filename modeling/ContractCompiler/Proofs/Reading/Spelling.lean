import ContractCompiler.Proofs.Reading.Held
import ContractCompiler.Proofs.Token.Numerals
import ContractCompiler.Proofs.Token.Quoting

/-!
# The words and numbers of a source text

What an expression of a parsed file is named by are words of its source text, and its numbers are numbers of it, so that
each of them is one token again wherever it is written. The one exception is a field of an object literal without a
value, such as the quoted field in `{"a b"}`: its value is a variable that may have any name.
-/

namespace ContractCompiler

namespace Expr

/-- The direct subexpressions that stand as operands: all but the values of an object literal. -/
def operands : Expr → List Expr
  | .object .. => []
  | e => e.children

/-- A variable is named by a word. -/
def Named : Expr → Prop
  | .ident name => Token.isName name.name = true
  | _ => True

/-- What the node itself writes is one token: the name of its member, or its number. -/
def Writable : Expr → Prop
  | .literal _ (.number text) => ∀ rest, Token.Delimited rest → Token.Scans text.toList [.number text] rest
  | .member _ _ name => Token.isName name.name = true
  | _ => True

/-- Every node writes tokens, and every variable that is an operand is named by a word. -/
def Spelled (e : Expr) : Prop := ∀ x ∈ e.subexprs, x.Writable ∧ ∀ c ∈ x.operands, c.Named

/-- A variable is named by one of the tokens. -/
def NamedIn (ts : List Token) : Expr → Prop
  | .ident name => ∃ t ∈ ts, t.kind.bindingName? = some name.name
  | _ => True

/-- What the node itself writes is one of the tokens: its literal, or the name of its member. -/
def WrittenIn (ts : List Token) : Expr → Prop
  | .literal _ value => ∃ t ∈ ts, t.kind.literal? = some value
  | .member _ _ name => ∃ t ∈ ts, t.kind.memberName? = some name.name
  | _ => True

/-- The node is an object literal with a field of this key that has no value. -/
def HasShorthand (key : Ident) : Expr → Prop
  | .object _ fields => ⟨key, .ident key⟩ ∈ fields
  | _ => False

/-- Every node writes some of the tokens, and every variable is named by one of them or stands for a field without a
value. -/
def Sourced (ts : List Token) (e : Expr) : Prop :=
  ∀ x ∈ e.subexprs, x.WrittenIn ts ∧ ∀ c ∈ x.children, c.NamedIn ts ∨ ∃ key, c = .ident key ∧ x.HasShorthand key

variable {e : Expr} {all : List Token}

/-- A node whose parts are all sourced and named. -/
theorem Sourced.of_children (hown : e.WrittenIn all) (h : ∀ c ∈ e.children, c.Sourced all ∧ c.NamedIn all) :
    e.Sourced all :=
  forall_subexprs_iff.mpr ⟨⟨hown, fun c hc => .inl (h c hc).2⟩, fun c hc => (h c hc).1⟩

/-- A spelled node writes tokens, with words as its variables. -/
theorem Spelled.self (h : e.Spelled) : e.Writable ∧ ∀ c ∈ e.operands, c.Named := (forall_subexprs_iff.mp h).1

theorem Spelled.child (h : e.Spelled) {c : Expr} (hc : c ∈ e.children) : c.Spelled := (forall_subexprs_iff.mp h).2 c hc

end Expr

open ContractCompiler.Expr

variable {source : String} {all : List Token}

/-- A token that names a member is a word. -/
theorem isName_of_mem_tokensOf {t : Token} (ht : t ∈ tokensOf source) {name : String}
    (h : t.kind.memberName? = some name) : Token.isName name = true := by
  obtain ⟨scanned, hscanned, rfl⟩ := List.mem_map.mp ht
  exact Token.isName_of_mem hscanned h

/-- What names a variable may name a member. -/
theorem memberName?_of_bindingName? {k : TokenKind} {name : String} (h : k.bindingName? = some name) :
    k.memberName? = some name := by
  cases k with
  | keyword word =>
    simp only [TokenKind.bindingName?] at h
    split at h
    · exact h
    · cases h
  | ident => exact h
  | _ => cases h

/-- A literal that was read is written by one token. -/
theorem writable_of_literal? {t : Token} (ht : t ∈ tokensOf source) {value : Literal} (h : t.kind.literal? = some value)
    (span : Span) : (Expr.literal span value).Writable := by
  cases value with
  | number text =>
    intro rest hrest
    obtain ⟨scanned, hscanned, rfl⟩ := List.mem_map.mp ht
    refine Token.scans_number_of_mem hscanned ?_ hrest
    unfold TokenKind.literal? at h
    split at h <;> cases h
    assumption
  | _ => trivial

/-- A variable that is named by a token of a text is named by a word. -/
theorem Expr.NamedIn.named {e : Expr} (h : e.NamedIn (tokensOf source)) : e.Named := by
  cases e with
  | ident name =>
    obtain ⟨t, ht, hname⟩ := h
    exact isName_of_mem_tokensOf ht (memberName?_of_bindingName? hname)
  | _ => trivial

/-- The items of a list write some of its tokens. -/
theorem sourced_items {parts : List (List Token × Expr)} {close : Mark} {clean : Bool} {us : List Token}
    (ih : ∀ p ∈ parts, p.1 ⊆ all → p.2.Sourced all ∧ p.2.NamedIn all) (hlist : Listed clean close parts us)
    (hus : us ⊆ all) : ∀ c ∈ parts.map Prod.snd, c.Sourced all ∧ c.NamedIn all := by
  intro c hc
  obtain ⟨p, hp, rfl⟩ := List.mem_map.mp hc
  exact ih p hp fun t ht => hus ((hlist.sublist_of_mem hp).subset ht)

/-- The expression a phrase makes up is sourced from its tokens. -/
theorem Phrase.sourced {clean : Bool} {r : Rank} {ts : List Token} {e : Expr} (h : Phrase clean r ts e) :
    ts ⊆ all → e.Sourced all ∧ e.NamedIn all := by
  induction h with
  | looser _ _ ih => exact ih
  | literal hvalue =>
    intro hts
    exact ⟨.of_children ⟨_, hts List.mem_cons_self, hvalue⟩ nofun, trivial⟩
  | name hname =>
    intro hts
    exact ⟨.of_children trivial nofun, _, hts List.mem_cons_self, hname⟩
  | this _ => exact fun _ => ⟨.of_children trivial nofun, trivial⟩
  | super _ => exact fun _ => ⟨.of_children trivial nofun, trivial⟩
  | paren _ _ _ ih =>
    intro hts
    simp only [List.cons_append, List.cons_subset, List.append_subset] at hts
    exact ⟨.of_children trivial (List.forall_mem_singleton.mpr (ih hts.2.1)), trivial⟩
  | array _ _ hlist ih =>
    intro hts
    exact ⟨.of_children trivial (sourced_items ih hlist (List.cons_subset.mp hts).2), trivial⟩
  | @object o parts _ _ hentry _ hlist ih =>
    intro hts
    have hvalue : ∀ p ∈ parts, p.2.value.Sourced all ∧ (p.2.value.NamedIn all ∨ p.2.value = .ident p.2.key) := by
      rintro ⟨us, f⟩ hp
      have hus : us ⊆ all := fun t ht => hts (List.mem_cons_of_mem _ ((hlist.sublist_of_mem hp).subset ht))
      cases hentry _ hp with
      | short _ => exact ⟨.of_children trivial nofun, .inr rfl⟩
      | long _ _ =>
        obtain ⟨hsourced, hnamed⟩ := ih _ _ _ _ hp (List.cons_subset.mp (List.cons_subset.mp hus).2).2
        exact ⟨hsourced, .inl hnamed⟩
    refine ⟨forall_subexprs_iff.mpr ⟨⟨trivial, ?_⟩, ?_⟩, trivial⟩ <;> simp only [children, List.mem_map]
    · rintro _ ⟨_, ⟨p, hp, rfl⟩, rfl⟩
      rcases (hvalue p hp).2 with hnamed | hshort
      · exact .inl hnamed
      · refine .inr ⟨p.2.key, hshort, List.mem_map.mpr ⟨p, hp, ?_⟩⟩
        rw [← hshort]
    · rintro _ ⟨_, ⟨p, hp, rfl⟩, rfl⟩
      exact (hvalue p hp).1
  | new _ _ _ ih =>
    intro hts
    simp only [List.cons_append, List.cons_subset, List.append_subset] at hts
    exact ⟨.of_children trivial (List.forall_mem_singleton.mpr (ih hts.2.1)), trivial⟩
  | newWith _ _ _ _ _ hlist ih ihargs =>
    intro hts
    simp only [List.cons_append, List.cons_subset, List.append_subset] at hts
    exact ⟨.of_children trivial (List.forall_mem_cons.mpr ⟨ih hts.2.1.1, sourced_items ihargs hlist hts.2.2.2⟩), trivial⟩
  | member _ _ _ hname ih =>
    intro hts
    simp only [List.cons_subset, List.append_subset] at hts
    exact ⟨.of_children (⟨_, hts.2.2.1, hname⟩) (List.forall_mem_singleton.mpr (ih hts.1)), trivial⟩
  | index _ _ _ _ ih ihkey =>
    intro hts
    simp only [List.cons_append, List.cons_subset, List.append_subset] at hts
    exact ⟨.of_children trivial (List.forall_mem_cons.mpr ⟨ih hts.1, List.forall_mem_singleton.mpr (ihkey hts.2.2.1)⟩),
      trivial⟩
  | call _ _ _ hlist ih ihargs =>
    intro hts
    simp only [List.cons_subset, List.append_subset] at hts
    exact ⟨.of_children trivial (List.forall_mem_cons.mpr ⟨ih hts.1, sourced_items ihargs hlist hts.2.2⟩), trivial⟩
  | nonNull _ _ ih =>
    intro hts
    exact ⟨.of_children trivial (List.forall_mem_singleton.mpr (ih (List.append_subset.mp hts).1)), trivial⟩
  | optionalMember _ _ hname ih =>
    intro hts
    simp only [List.cons_subset, List.append_subset] at hts
    refine ⟨.of_children trivial (List.forall_mem_singleton.mpr ⟨?_, trivial⟩), trivial⟩
    exact .of_children (⟨_, hts.2.2.1, hname⟩) (List.forall_mem_singleton.mpr (ih hts.1))
  | optionalIndex _ _ _ _ _ ih ihkey =>
    intro hts
    simp only [List.cons_append, List.cons_subset, List.append_subset] at hts
    refine ⟨.of_children trivial (List.forall_mem_singleton.mpr ⟨?_, trivial⟩), trivial⟩
    exact .of_children trivial (List.forall_mem_cons.mpr ⟨ih hts.1, List.forall_mem_singleton.mpr (ihkey hts.2.2.2.1)⟩)
  | optionalCall _ _ _ _ hlist ih ihargs =>
    intro hts
    simp only [List.cons_subset, List.append_subset] at hts
    refine ⟨.of_children trivial (List.forall_mem_singleton.mpr ⟨?_, trivial⟩), trivial⟩
    exact .of_children trivial (List.forall_mem_cons.mpr ⟨ih hts.1, sourced_items ihargs hlist hts.2.2.2⟩)
  | unary _ _ ih =>
    intro hts
    exact ⟨.of_children trivial (List.forall_mem_singleton.mpr (ih (List.cons_subset.mp hts).2)), trivial⟩
  | leading _ _ ih =>
    intro hts
    exact ⟨.of_children trivial (List.forall_mem_singleton.mpr (ih (List.cons_subset.mp hts).2)), trivial⟩
  | trailing _ _ ih =>
    intro hts
    exact ⟨.of_children trivial (List.forall_mem_singleton.mpr (ih (List.append_subset.mp hts).1)), trivial⟩
  | power _ _ _ ihl ihr =>
    intro hts
    simp only [List.cons_subset, List.append_subset] at hts
    exact ⟨.of_children trivial (List.forall_mem_cons.mpr ⟨ihl hts.1, List.forall_mem_singleton.mpr (ihr hts.2.2)⟩),
      trivial⟩
  | operation _ _ _ _ _ ihl ihr =>
    intro hts
    simp only [List.append_subset] at hts
    exact ⟨.of_children trivial (List.forall_mem_cons.mpr ⟨ihl hts.1, List.forall_mem_singleton.mpr (ihr hts.2.2)⟩),
      trivial⟩
  | asType _ _ ih =>
    intro hts
    exact ⟨.of_children trivial (List.forall_mem_singleton.mpr (ih (List.append_subset.mp hts).1)), trivial⟩
  | satisfiesType _ _ ih =>
    intro hts
    exact ⟨.of_children trivial (List.forall_mem_singleton.mpr (ih (List.append_subset.mp hts).1)), trivial⟩
  | conditional _ _ _ _ _ _ ih ihc iha =>
    intro hts
    simp only [List.cons_append, List.append_assoc, List.cons_subset, List.append_subset] at hts
    refine ⟨.of_children trivial (List.forall_mem_cons.mpr ⟨ih hts.1, ?_⟩), trivial⟩
    exact List.forall_mem_cons.mpr ⟨ihc hts.2.2.1, List.forall_mem_singleton.mpr (iha hts.2.2.2.2)⟩
  | assign _ _ _ _ _ ihl ihr =>
    intro hts
    simp only [List.append_subset] at hts
    exact ⟨.of_children trivial (List.forall_mem_cons.mpr ⟨ihl hts.1, List.forall_mem_singleton.mpr (ihr hts.2.2)⟩),
      trivial⟩

/-- What is sourced from the tokens of a text is spelled. -/
theorem Expr.Sourced.spelled {e : Expr} (h : e.Sourced (tokensOf source)) : e.Spelled := by
  intro x hx
  obtain ⟨hown, hparts⟩ := h x hx
  refine ⟨?_, fun c hc => ?_⟩
  · cases x with
    | literal span value =>
      obtain ⟨t, ht, hvalue⟩ := hown
      exact writable_of_literal? ht hvalue span
    | member span target name =>
      obtain ⟨t, ht, hname⟩ := hown
      exact isName_of_mem_tokensOf ht hname
    | _ => trivial
  · cases x with
    | object => cases hc
    | _ =>
      rcases hparts c hc with hnamed | ⟨_, -, hshort⟩
      · exact hnamed.named
      · cases hshort

/-! ## At any depth -/

namespace Expr

/-- A direct part is smaller than the whole. -/
theorem sizeOf_lt_of_mem_children {e c : Expr} (hc : c ∈ e.children) : sizeOf c < sizeOf e := by
  cases e with
  | literal | ident | this | super => cases hc
  | object span fields =>
    obtain ⟨f, hf, rfl⟩ := List.mem_map.mp hc
    have hlist := List.sizeOf_lt_of_mem hf
    cases f
    simp only [Expr.object.sizeOf_spec, Field.mk.sizeOf_spec] at hlist ⊢
    omega
  | array span elements =>
    have hlist := List.sizeOf_lt_of_mem (show c ∈ elements from hc)
    simp only [Expr.array.sizeOf_spec]
    omega
  | call span callee args | new span callee args =>
    simp only [Expr.call.sizeOf_spec, Expr.new.sizeOf_spec]
    rcases List.mem_cons.mp hc with rfl | hc
    · omega
    · have hlist := List.sizeOf_lt_of_mem hc
      omega
  | index | binary | conditional =>
    simp only [children, List.mem_cons, List.not_mem_nil, or_false] at hc
    simp only [Expr.index.sizeOf_spec, Expr.binary.sizeOf_spec, Expr.conditional.sizeOf_spec]
    rcases hc with rfl | hc
    · omega
    · rcases hc with rfl | rfl <;> omega
  | _ =>
    cases List.mem_singleton.mp hc
    simp only [Expr.member.sizeOf_spec, Expr.unary.sizeOf_spec, Expr.update.sizeOf_spec, Expr.paren.sizeOf_spec,
      Expr.asType.sizeOf_spec, Expr.satisfiesType.sizeOf_spec, Expr.nonNull.sizeOf_spec, Expr.optionalChain.sizeOf_spec]
    omega

/-- What holds of an expression and passes to direct subexpressions holds at any depth. -/
theorem subexprs_closed {P : Expr → Prop} (hP : ∀ e c, P e → c ∈ e.children → P c) {e : Expr} (he : P e) :
    ∀ x ∈ e.subexprs, P x := by
  intro x hx
  rw [subexprs_eq] at hx
  rcases List.mem_cons.mp hx with rfl | hx
  · exact he
  · obtain ⟨c, hc, hx⟩ := List.mem_flatMap.mp hx
    exact subexprs_closed hP (hP e c he hc) x hx
termination_by sizeOf e
decreasing_by exact sizeOf_lt_of_mem_children hc

/-- The parts of a leveled expression are leveled. -/
theorem Leveled.child {e : Expr} (h : e.Leveled) : ∀ c ∈ e.children, c.Leveled := by
  cases h with
  | literal | ident | this | super => exact nofun
  | member h | unary h | leading h | trailing h | paren h | asType h | satisfiesType h | nonNull h | optionalChain h =>
    exact List.forall_mem_singleton.mpr h
  | index h _ hkey => exact List.forall_mem_cons.mpr ⟨h, List.forall_mem_singleton.mpr hkey⟩
  | call h _ hargs | new h _ hargs => exact List.forall_mem_cons.mpr ⟨h, hargs⟩
  | operation _ hl _ hr | assignment _ hl _ hr =>
    exact List.forall_mem_cons.mpr ⟨hl, List.forall_mem_singleton.mpr hr⟩
  | power hl _ hr => exact List.forall_mem_cons.mpr ⟨hl, List.forall_mem_singleton.mpr hr⟩
  | conditional h _ hc ha =>
    exact List.forall_mem_cons.mpr ⟨h, List.forall_mem_cons.mpr ⟨hc, List.forall_mem_singleton.mpr ha⟩⟩
  | array h => exact h
  | object h => exact List.forall_mem_map.mpr h

end Expr

/-- What stands inside an expression is the expression itself or a direct subexpression of something inside it. -/
theorem mem_subexprs_cases {e x : Expr} (hx : x ∈ e.subexprs) : x = e ∨ ∃ y ∈ e.subexprs, x ∈ y.children := by
  rw [Expr.subexprs_eq] at hx
  rcases List.mem_cons.mp hx with rfl | hx
  · exact .inl rfl
  obtain ⟨c, hc, hx⟩ := List.mem_flatMap.mp hx
  rcases mem_subexprs_cases hx with rfl | ⟨y, hy, hx⟩
  · exact .inr ⟨e, mem_subexprs_self e, hc⟩
  · refine .inr ⟨y, ?_, hx⟩
    rw [Expr.subexprs_eq]
    exact List.mem_cons_of_mem _ (List.mem_flatMap.mpr ⟨c, hc, hy⟩)
termination_by sizeOf e
decreasing_by exact sizeOf_lt_of_mem_children hc

/-- The parts of an expression write some of its tokens. -/
theorem Expr.Sourced.child {e c : Expr} (h : e.Sourced all) (hc : c ∈ e.children) : c.Sourced all :=
  (forall_subexprs_iff.mp h).2 c hc

/-- The expressions that a parsed file is made of are sourced from the tokens of its source text and leveled. -/
theorem sourced_root {e : Expr} (he : e ∈ (parse source).file.exprs) :
    e.Sourced (tokensOf source) ∧ e.NamedIn (tokensOf source) ∧ e.Leveled := by
  obtain ⟨ts, hts, hphrase⟩ := (held_parse source).phrase he
  have htokens : ts ⊆ tokensOf source := fun t ht => (List.dropLast_sublist _).subset (hts.subset ht)
  obtain ⟨hsourced, hnamed⟩ := hphrase.sourced htokens
  exact ⟨hsourced, hnamed, hphrase.leveled.1⟩

/-- And so is everything inside them. -/
theorem sourced_parse {e : Expr} (he : e ∈ (parse source).file.exprs.flatMap subexprs) :
    e.Sourced (tokensOf source) ∧ e.Leveled := by
  obtain ⟨root, hroot, he⟩ := List.mem_flatMap.mp he
  obtain ⟨hsourced, -, hleveled⟩ := sourced_root hroot
  refine subexprs_closed (P := fun x => x.Sourced (tokensOf source) ∧ x.Leveled) (fun x c hx hc => ?_) ?_ e he
  · exact ⟨hx.1.child hc, hx.2.child c hc⟩
  · exact ⟨hsourced, hleveled⟩

/-- Every expression of a parsed file is spelled and leveled, at any depth. -/
theorem spelled_parse {e : Expr} (he : e ∈ (parse source).file.exprs.flatMap subexprs) : e.Spelled ∧ e.Leveled :=
  ⟨(sourced_parse he).1.spelled, (sourced_parse he).2⟩

/-- A variable of a parsed file, at any depth, is named by a token unless it stands for a field without a value. -/
theorem namedIn_parse {e : Expr} (he : e ∈ (parse source).file.exprs.flatMap subexprs)
    (hshort : ∀ x ∈ (parse source).file.exprs.flatMap subexprs, ∀ key, e = .ident key → ¬ x.HasShorthand key) :
    e.NamedIn (tokensOf source) := by
  obtain ⟨root, hroot, he⟩ := List.mem_flatMap.mp he
  obtain ⟨hsourced, hnamed, -⟩ := sourced_root hroot
  rcases mem_subexprs_cases he with rfl | ⟨x, hx, hchild⟩
  · exact hnamed
  rcases (hsourced x hx).2 e hchild with hnamed | ⟨key, rfl, hkey⟩
  · exact hnamed
  · exact absurd hkey (hshort x (List.mem_flatMap.mpr ⟨root, hroot, hx⟩) key rfl)

end ContractCompiler
