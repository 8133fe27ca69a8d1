import ContractCompiler.Proofs.Binding.SpanKeys
import ContractCompiler.Proofs.Formatting.Grammar
import ContractCompiler.Proofs.Spans.Building
import ContractCompiler.Proofs.Spans.Failures
import ContractCompiler.Proofs.Token.Boundaries

/-!
# Valid spans

Every span that comes out of reading a source text, or of refusing to write one of its classes, lies between two boundaries of
characters of the text. In the tree the spans are nested: what stands in something lies inside it, one part after the other.
-/

namespace ContractCompiler

/-! ## Places in a source text -/

section

variable {source : String}

/-- The span of a token is valid. -/
theorem valid_of_mem_tokensOf {t : Token} (ht : t ∈ tokensOf source) : t.span.Valid source := by
  obtain ⟨scanned, hscanned, rfl⟩ := List.mem_map.mp ht
  exact (Token.cuts_scanFrom 0 source.toList [] rfl scanned hscanned).1.valid

/-- What goes from the start of a token to the end of one is valid. -/
theorem Span.Bounded.valid {span : Span} (h : span.Bounded (tokensOf source)) : span.Valid source := by
  obtain ⟨hle, ⟨a, ha, hstart⟩, b, hb, hstop⟩ := h
  obtain ⟨-, -, ha', -⟩ := valid_of_mem_tokensOf ha
  obtain ⟨-, hlength, -, hb'⟩ := valid_of_mem_tokensOf hb
  refine ⟨hle, hstop ▸ hlength, ?_, ?_⟩
  · rwa [hstart]
  · rwa [hstop]

theorem valid_of_mem_lexErrors {e : ParseError} (he : e ∈ lexErrors (Token.scan source)) : e.span.Valid source := by
  obtain ⟨fault, hfault, rfl⟩ := List.mem_map.mp he
  obtain ⟨scanned, hscanned, hfault⟩ := List.mem_flatMap.mp hfault
  exact ((Token.cuts_scanFrom 0 source.toList [] rfl scanned hscanned).2 fault hfault).valid

/-- The errors of the parser are at tokens. -/
theorem errors_at_tokens (source : String) : ∀ e ∈ (readTokens (tokensOf source)).2.errors, e.At (tokensOf source) := by
  have hne : tokensOf source ≠ [] := by
    intro hnil
    have hfollow := follow_tokensOf source
    rw [hnil] at hfollow
    cases hfollow
  exact (Reformatting.readTokens_move ⟨tokensOf source, id, fun h => h, fun _ _ _ h => h⟩ hne).2

theorem valid_of_mem_errors {e : ParseError} (he : e ∈ (parse source).errors) : e.span.Valid source := by
  rcases List.mem_append.mp (List.mem_mergeSort.mp he) with he | he
  · exact valid_of_mem_lexErrors he
  · obtain ⟨t, ht, hspan⟩ := errors_at_tokens source e he
    rw [hspan]
    exact valid_of_mem_tokensOf ht

/-- A class of a file stands in it. -/
theorem SourceFile.shows_of_mem_classes {file : SourceFile} {c : ClassDecl} (hc : c ∈ file.classes) {span : Span}
    (h : c.tree.Shows span) : ∃ t ∈ file.trees, t.Shows span := by
  obtain ⟨i, hi, hshape⟩ := mem_classes.mp hc
  refine ⟨i.tree, List.mem_map_of_mem hi, .part ?_ h⟩
  rw [hshape]
  exact List.mem_cons_self

end

/-! ## Optional chains -/

/-- An optional chain has the span of its link. -/
def Expr.AtLink : Expr → Prop
  | .optionalChain span link => link.span = span
  | _ => True

/-- Every optional chain in what a phrase makes up has the span of its link. -/
theorem Phrase.atLink {clean : Bool} {r : Rank} {ts : List Token} {e : Expr} (h : Phrase clean r ts e) :
    ∀ x ∈ e.subexprs, x.AtLink := by
  induction h with
  | looser _ _ ih => exact ih
  | literal | name | this | super => exact Expr.forall_subexprs_iff.mpr ⟨trivial, by simp [Expr.children]⟩
  | paren _ _ _ ih | new _ _ _ ih | member _ _ _ _ ih | nonNull _ _ ih | unary _ _ ih | leading _ _ ih | trailing _ _ ih
  | asType _ _ ih | satisfiesType _ _ ih =>
    exact Expr.forall_subexprs_iff.mpr ⟨trivial, List.forall_mem_singleton.mpr ih⟩
  | index _ _ _ _ ihl ihr | power _ _ _ ihl ihr | operation _ _ _ _ _ ihl ihr | assign _ _ _ _ _ ihl ihr =>
    exact Expr.forall_subexprs_iff.mpr ⟨trivial, List.forall_mem_cons.mpr ⟨ihl, List.forall_mem_singleton.mpr ihr⟩⟩
  | conditional _ _ _ _ _ _ ih ihc iha =>
    refine Expr.forall_subexprs_iff.mpr ⟨trivial, List.forall_mem_cons.mpr ⟨ih, ?_⟩⟩
    exact List.forall_mem_cons.mpr ⟨ihc, List.forall_mem_singleton.mpr iha⟩
  | array _ _ _ ih => exact Expr.forall_subexprs_iff.mpr ⟨trivial, List.forall_mem_map.mpr ih⟩
  | newWith _ _ _ _ _ _ ih ihargs | call _ _ _ _ ih ihargs =>
    exact Expr.forall_subexprs_iff.mpr ⟨trivial, List.forall_mem_cons.mpr ⟨ih, List.forall_mem_map.mpr ihargs⟩⟩
  | object _ hentry _ _ ih =>
    refine Expr.forall_subexprs_iff.mpr ⟨trivial, List.forall_mem_map.mpr (List.forall_mem_map.mpr fun p hp => ?_)⟩
    obtain ⟨us, f⟩ := p
    cases hentry _ hp with
    | short => exact Expr.forall_subexprs_iff.mpr ⟨trivial, by simp [Expr.children]⟩
    | long => exact ih _ _ _ _ hp
  | optionalMember _ _ _ ih =>
    refine Expr.forall_subexprs_iff.mpr ⟨rfl, List.forall_mem_singleton.mpr ?_⟩
    exact Expr.forall_subexprs_iff.mpr ⟨trivial, List.forall_mem_singleton.mpr ih⟩
  | optionalIndex _ _ _ _ _ ih ihkey =>
    refine Expr.forall_subexprs_iff.mpr ⟨rfl, List.forall_mem_singleton.mpr ?_⟩
    exact Expr.forall_subexprs_iff.mpr ⟨trivial, List.forall_mem_cons.mpr ⟨ih, List.forall_mem_singleton.mpr ihkey⟩⟩
  | optionalCall _ _ _ _ _ ih ihargs =>
    refine Expr.forall_subexprs_iff.mpr ⟨rfl, List.forall_mem_singleton.mpr ?_⟩
    exact Expr.forall_subexprs_iff.mpr ⟨trivial, List.forall_mem_cons.mpr ⟨ih, List.forall_mem_map.mpr ihargs⟩⟩

/-- In a source text every optional chain has the span of its link. -/
theorem atLink_of_mem_subexprs {source : String} {x : Expr} (hx : x ∈ (parse source).file.subexprs) : x.AtLink := by
  obtain ⟨e, he, hx⟩ := List.mem_flatMap.mp hx
  obtain ⟨us, -, hphrase⟩ := (held_parse source).phrase he
  exact hphrase.atLink x hx

/-- The spans of a source text are valid and nested, whether it is read without errors or not. Every span starts and ends at a
boundary of characters, also those of errors and of failures to write a class, whatever the bindings. What stands in a node lies
inside it, in the order of the source and apart from what else stands there; an optional chain has the span of its link. -/
theorem spans_valid_and_nested (source : String) :
    (∀ t ∈ (parse source).file.trees, t.Nested (Span.Valid source)) ∧
    (parse source).file.trees.Pairwise SpanTree.Before ∧
    (∀ span link, .optionalChain span link ∈ (parse source).file.subexprs → link.span = span) ∧
    (∀ e ∈ (parse source).errors, e.span.Valid source) ∧
    ∀ c ∈ (parse source).file.classes, ∀ indent b err, c.render indent b = .error err → err.span.Valid source := by
  have hover := SourceFile.over_trees source
  have hnested : ∀ t ∈ (parse source).file.trees, t.Nested (Span.Valid source) :=
    fun t ht => (hover.nested t ht).mono fun span hspan => hspan.valid
  refine ⟨hnested, hover.ordered, fun span link => atLink_of_mem_subexprs, fun e => valid_of_mem_errors, ?_⟩
  intro c hc indent b err herr
  obtain ⟨t, ht, hshows⟩ := SourceFile.shows_of_mem_classes hc (ClassDecl.shows_of_render herr)
  exact (hnested t ht).valid_of_shows hshows

end ContractCompiler
