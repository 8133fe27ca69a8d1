import ContractCompiler.Proofs.Reading.Accepted

/-!
# Trees over the tokens that were read

A parser reads on from where it stands, so what it makes lies over the tokens it has read: `Over ts trees`. The spans of a
part that was read are such trees over the tokens between its two states, since the spans of its parts are and its own span
comes from them (`reading_builtAt`). So the spans of a whole file lie over its tokens.
-/

namespace ContractCompiler

/-- The span goes from the start of one of the tokens to the end of one of them. -/
def Span.Bounded (ts : List Token) (span : Span) : Prop :=
  span.start ≤ span.stop ∧ (∃ a ∈ ts, span.start = a.span.start) ∧ ∃ b ∈ ts, span.stop = b.span.stop

/-- The trees stand over the tokens, one after the other. -/
structure Over (ts : List Token) (trees : List SpanTree) : Prop where
  nested : ∀ t ∈ trees, t.Nested (Span.Bounded ts)
  ordered : trees.Pairwise SpanTree.Before

namespace Over

variable {ts us : List Token} {trees trees' : List SpanTree}

/-- No trees stand over any tokens. -/
theorem nil (ts : List Token) : Over ts [] := ⟨by simp, .nil⟩

/-- The span of a tree over tokens goes from one of them to one of them. -/
theorem bounded (h : Over ts trees) {t : SpanTree} (ht : t ∈ trees) : t.span.Bounded ts := (h.nested t ht).valid_span

/-- Trees over tokens are trees over more tokens. -/
theorem mono (h : Over ts trees) (hts : ts ⊆ us) : Over us trees := by
  refine ⟨fun t ht => (h.nested t ht).mono fun span hspan => ?_, h.ordered⟩
  obtain ⟨hle, ⟨a, ha, hstart⟩, b, hb, hstop⟩ := hspan
  exact ⟨hle, ⟨a, hts ha, hstart⟩, b, hts hb, hstop⟩

/-- Trees over the tokens that come first, and trees over those after them. -/
theorem append (h : Over ts trees) (h' : Over us trees') (hts : Ascending (ts ++ us)) : Over (ts ++ us) (trees ++ trees') := by
  refine ⟨List.forall_mem_append.mpr ⟨?_, ?_⟩, List.pairwise_append.mpr ⟨h.ordered, h'.ordered, fun a ha b hb => ?_⟩⟩
  · exact (h.mono (List.subset_append_left ts us)).nested
  · exact (h'.mono (List.subset_append_right ts us)).nested
  · obtain ⟨-, -, t, ht, hstop⟩ := h.bounded ha
    obtain ⟨-, ⟨u, hu, hstart⟩, -⟩ := h'.bounded hb
    rw [SpanTree.Before, hstop, hstart]
    exact (List.pairwise_append.mp hts.2).2.2 t ht u hu

/-- A tree by itself stands over the tokens that bound its spans. -/
theorem single {t : SpanTree} (h : t.Nested (Span.Bounded ts)) : Over ts [t] :=
  ⟨List.forall_mem_singleton.mpr h, List.pairwise_singleton _ _⟩

/-- Nothing starts before the first tree. -/
theorem start_le {x : SpanTree} {xs : List SpanTree} (h : Over ts (x :: xs)) :
    ∀ t ∈ x :: xs, x.span.start ≤ t.span.start := by
  intro t ht
  rcases List.mem_cons.mp ht with rfl | ht
  · exact Nat.le_refl _
  · exact Nat.le_trans (h.bounded List.mem_cons_self).1 (List.rel_of_pairwise_cons h.ordered ht)

/-- Nothing ends after the last tree. -/
theorem le_stop {last : SpanTree} (h : Over ts trees) (hlast : trees.getLast? = some last) :
    ∀ t ∈ trees, t.span.stop ≤ last.span.stop := by
  obtain ⟨init, rfl⟩ := List.getLast?_eq_some_iff.mp hlast
  intro t ht
  rcases List.mem_append.mp ht with ht | ht
  · have hbefore : t.span.stop ≤ last.span.start := (List.pairwise_append.mp h.ordered).2.2 t ht last (by simp)
    exact Nat.le_trans hbefore (h.bounded (by simp)).1
  · exact Nat.le_of_eq (congrArg (fun t => t.span.stop) (List.mem_singleton.mp ht))

/-- A node from the start of a token before the trees on to the last token. -/
theorem wrap (h : Over ts trees) (hts : Ascending ts) {first : Token} (hfirst : first ∈ ts)
    (hle : ∀ t ∈ trees, first.span.start ≤ t.span.start) : Over ts [.node (spanTo first.span.start ts) trees] := by
  obtain ⟨last, hlast, hstop⟩ := spanTo_stop hts hfirst
  have hmem := List.mem_of_getLast? hlast
  refine single (.node ⟨?_, ⟨first, hfirst, rfl⟩, last, hmem, hstop⟩ h.nested (fun t ht => ⟨hle t ht, ?_⟩) h.ordered)
  · rw [hstop]
    exact (hts.le_last hfirst hlast).1
  · obtain ⟨-, -, b, hb, hb'⟩ := h.bounded ht
    rw [hstop, hb']
    exact (hts.le_last hb hlast).2

/-- A node from the first tree through the last one. -/
theorem join {x last : SpanTree} {xs : List SpanTree} (h : Over ts (x :: xs)) (hlast : (x :: xs).getLast? = some last) :
    Over ts [.node (x.span.through last.span) (x :: xs)] := by
  have hle := h.le_stop hlast
  have hx := h.bounded List.mem_cons_self
  have hlast' := h.bounded (List.mem_of_getLast? hlast)
  have hstop : (x.span.through last.span).stop = last.span.stop := Nat.max_eq_left (hle x List.mem_cons_self)
  refine single (.node ⟨?_, hx.2.1, hstop ▸ hlast'.2.2⟩ h.nested (fun t ht => ⟨h.start_le t ht, ?_⟩) h.ordered)
  · rw [hstop]
    exact Nat.le_trans hx.1 (hle x List.mem_cons_self)
  · rw [hstop]
    exact hle t ht

/-- A node with the span of what stands in it. -/
theorem again {x : SpanTree} (h : Over ts [x]) : Over ts [.node x.span [x]] := by
  refine single (.node (h.bounded List.mem_cons_self) h.nested ?_ h.ordered)
  exact List.forall_mem_singleton.mpr ⟨Nat.le_refl _, Nat.le_refl _⟩

/-- A token is a tree over itself. -/
theorem leaf {t : Token} (h : t.span.start ≤ t.span.stop) : Over [t] [.node t.span []] :=
  single (.node ⟨h, ⟨t, List.mem_cons_self, rfl⟩, t, List.mem_cons_self, rfl⟩ (by simp) (by simp) .nil)

end Over

/-! ## Trees built between two states -/

open ContractCompiler.Parser

/-- Between the two states, on the tokens of a text, the trees were built over the tokens that were read. -/
structure Built (tokens : List Token) (s₀ s : ParserState) (trees : List SpanTree) : Prop where
  on : s₀.On tokens
  overTokens : ∃ ts, Passed s₀ ts s ∧ Over ts trees

namespace Built

variable {tokens ts : List Token} {s₀ s s' : ParserState} {trees trees' : List SpanTree}

/-- Where nothing was read nothing was built. -/
theorem refl (hs : s.On tokens) : Built tokens s s [] := ⟨hs, [], Passed.refl s, Over.nil []⟩

/-- What was built leads to a state on the tokens. -/
theorem on_state (h : Built tokens s₀ s trees) : s.On tokens := by
  obtain ⟨ts, hts, -⟩ := h.overTokens
  exact hts.on h.on

/-- Tokens after what was built. -/
theorem passed (h : Built tokens s₀ s trees) (hs : Passed s ts s') : Built tokens s₀ s' trees := by
  obtain ⟨us, hus, hover⟩ := h.overTokens
  exact ⟨h.on, us ++ ts, hus.trans hs, hover.mono (List.subset_append_left us ts)⟩

/-- What is built after other trees stands behind them. -/
theorem append (h : Built tokens s₀ s trees) (h' : Built tokens s s' trees') : Built tokens s₀ s' (trees ++ trees') := by
  obtain ⟨ts, hts, hover⟩ := h.overTokens
  obtain ⟨us, hus, hover'⟩ := h'.overTokens
  have hpassed := hts.trans hus
  exact ⟨h.on, ts ++ us, hpassed, hover.append hover' (hpassed.tokens ▸ h.on.ascending).left⟩

/-- What lies over the tokens may be put together to other trees over them. -/
theorem map (h : Built tokens s₀ s trees) (hover : ∀ ts, Over ts trees → Over ts trees') : Built tokens s₀ s trees' := by
  obtain ⟨ts, hts, h'⟩ := h.overTokens
  exact ⟨h.on, ts, hts, hover ts h'⟩

/-- A node over all the tokens that were read. -/
theorem wrap (h : Built tokens s₀ s trees) (htook : Took s₀ s) :
    Built tokens s₀ s [.node (s.spanFrom s₀.here.span.start) trees] := by
  obtain ⟨ts, hts, hover⟩ := h.overTokens
  obtain ⟨us, hne, hus⟩ := htook
  have hall := hts.tokens.symm.trans hus.tokens
  obtain rfl : ts = us := List.append_cancel_right hall
  have hascending : Ascending ts := (hts.tokens ▸ h.on.ascending).left
  obtain ⟨t, rest, rfl⟩ := List.exists_cons_of_ne_nil hne
  have hhere := hts.head? t rfl
  refine ⟨h.on, t :: rest, hts, ?_⟩
  rw [hts.spanFrom_eq hne, ← hhere]
  refine hover.wrap hascending List.mem_cons_self fun x hx => ?_
  obtain ⟨-, ⟨a, ha, hstart⟩, -⟩ := hover.bounded hx
  rw [hstart]
  rcases List.mem_cons.mp ha with rfl | ha
  · exact Nat.le_refl _
  · exact Nat.le_trans (hascending.1 t List.mem_cons_self) (List.rel_of_pairwise_cons hascending.2 ha)

/-- A node from the first tree on to the last token that was read. -/
theorem extend {x : SpanTree} {xs : List SpanTree} (h : Built tokens s₀ s (x :: xs)) :
    Built tokens s₀ s [.node (s.spanFrom x.span.start) (x :: xs)] := by
  obtain ⟨ts, hts, hover⟩ := h.overTokens
  obtain ⟨-, ⟨a, ha, hstart⟩, -⟩ := hover.bounded List.mem_cons_self
  refine ⟨h.on, ts, hts, ?_⟩
  rw [hts.spanFrom_eq (List.ne_nil_of_mem ha), hstart]
  exact hover.wrap (hts.tokens ▸ h.on.ascending).left ha (hstart ▸ hover.start_le)

/-- A node with the span of all the tokens that were read. -/
theorem cover {α : Type} {span : α → Span} {a : α} (h : Built tokens s s' trees) (hcovers : Covers span s a s') :
    Built tokens s s' [.node (span a) trees] := by
  obtain ⟨ts, hne, hts, hspan⟩ := hcovers
  rw [hspan, ← hts.spanFrom_eq hne]
  exact h.wrap ⟨ts, hne, hts⟩

end Built

/-! ## The trees of parts -/

namespace Part

/-- The spans of a part. -/
def trees : Part → List SpanTree
  | .name _ i => [i.tree]
  | .type t | .target t => [t.tree]
  | .expr e | .value e => [e.tree]
  | .declarator d => [d.tree]
  | .stmt s => [s.tree]
  | .block b => [b.tree]
  | .decorator d => [d.tree]
  | .param p => [p.tree]
  | .shape m => m.trees
  | .member m => [m.tree]
  | .decl c => [c.tree]
  | .import_ d => d.trees
  | .item i => [i.tree]

/-- The spans of a dotted name are those of its names. -/
theorem flatMap_trees_ofPath (name? : TokenKind → Option String) (path : List Ident) :
    (ofPath name? path).flatMap trees = path.map Ident.tree := by
  cases path <;> simp [ofPath, trees, declared, List.flatMap_map, ← List.map_eq_flatMap]

/-- The spans of a name, an annotation and a value. -/
theorem flatMap_trees_ofTyped {i : Part} {name : Ident} (hi : i.trees = [name.tree]) (t : Option TypeExpr)
    (value : Option Expr) :
    (ofTyped i t value).flatMap trees = name.tree :: (t.toList.map TypeExpr.tree ++ value.toList.map Expr.tree) := by
  rw [ofTyped, List.flatMap_cons, hi]
  simp [trees, List.flatMap_map, ← List.map_eq_flatMap]

/-- The spans of the parameters, the result and the body of a callable. -/
theorem flatMap_trees_ofCallable (params : List Param) (returns : Option TypeExpr) (body : Option Block) :
    (ofCallable params returns body).flatMap trees = callableTrees params returns body := by
  simp [ofCallable, callableTrees, trees, List.flatMap_map, ← List.map_eq_flatMap]

/-- An annotation is a node over its parts. -/
theorem tree_eq_ofType (t : TypeExpr) : t.tree = .node t.span ((ofType t).flatMap trees) := by
  cases t with
  | named span path args =>
    rw [TypeExpr.tree, ofType, List.flatMap_append, flatMap_trees_ofPath, TypeExpr.trees_eq_map]
    simp [trees, List.flatMap_map, ← List.map_eq_flatMap, TypeExpr.span]
  | _ => simp [TypeExpr.tree, ofType, trees, TypeExpr.span, TypeExpr.trees_eq_map, List.flatMap_map, ← List.map_eq_flatMap]

/-- The spans of an entry of an object literal are those of its parts. -/
theorem flatMap_trees_ofField (f : Field Expr) : (ofField f).flatMap trees = f.trees := by
  unfold ofField Field.trees
  split <;> simp [trees, declared]

/-- An expression is a node over its parts. -/
theorem tree_eq_ofExpr (e : Expr) : e.tree = .node e.span ((ofExpr e).flatMap trees) := by
  cases e with
  | object span fields =>
    simp [Expr.tree, ofExpr, Expr.span, Expr.fieldTrees_eq_flatMap, List.flatMap_assoc, flatMap_trees_ofField]
  | _ => simp [Expr.tree, ofExpr, trees, Expr.span, Expr.trees_eq_map, Ident.tree, List.flatMap_map, ← List.map_eq_flatMap]

/-- A statement is a node over its parts. -/
theorem tree_eq_ofStmt (s : Stmt) : s.tree = .node s.span ((ofStmt s).flatMap trees) := by
  cases s <;>
    simp [Stmt.tree, ofStmt, trees, binding, Stmt.span, Stmt.trees_eq_map, Stmt.optionTrees_eq_map, List.flatMap_map,
      ← List.map_eq_flatMap]

/-- The spans of an import specifier are those of its parts. -/
theorem flatMap_trees_ofSpecifier (specifier : ImportSpecifier) : (ofSpecifier specifier).flatMap trees = specifier.trees := by
  unfold ofSpecifier ImportSpecifier.trees
  split <;> simp [trees, declared, binding]

/-- A part with a span of its own is a node over its parts. -/
theorem trees_of_node {p : Part} {span : Span} (h : p.node? = some span) :
    p.trees = [.node span (p.parts.flatMap trees)] := by
  cases p with
  | target | value | shape | import_ => cases h
  | name name? i =>
    cases h
    rfl
  | type t =>
    cases h
    exact congrArg ([·]) (tree_eq_ofType t)
  | expr e =>
    cases h
    exact congrArg ([·]) (tree_eq_ofExpr e)
  | declarator d =>
    cases h
    rw [parts, flatMap_trees_ofTyped rfl]
    rfl
  | stmt s =>
    cases h
    exact congrArg ([·]) (tree_eq_ofStmt s)
  | block b =>
    cases h
    simp [parts, trees, Block.tree, List.flatMap_map, ← List.map_eq_flatMap]
  | decorator d =>
    cases h
    simp [parts, trees, declared, Decorator.tree, List.flatMap_assoc, List.flatMap_map, ← List.map_eq_flatMap]
  | param p =>
    cases h
    rw [parts, flatMap_trees_ofTyped rfl]
    rfl
  | member m =>
    cases h
    simp [parts, trees, Member.tree, List.flatMap_map, ← List.map_eq_flatMap]
  | decl c =>
    cases h
    rw [parts, List.flatMap_append, List.flatMap_cons, List.flatMap_append, List.flatMap_assoc]
    simp [trees, binding, ClassDecl.tree, flatMap_trees_ofPath, List.flatMap_map, ← List.map_eq_flatMap]
  | item i =>
    cases h
    cases hshape : i.shape <;> simp [parts, ofItem, trees, Item.tree, hshape, ItemShape.trees]

/-- A part without a span of its own has the spans of its parts. -/
theorem trees_of_node_eq_none {p : Part} (h : p.node? = none) (htarget : ∀ t, p ≠ .target t) :
    p.trees = p.parts.flatMap trees := by
  cases p with
  | target t => exact absurd rfl (htarget t)
  | value e => rfl
  | shape m =>
    cases m with
    | property i t init => exact (flatMap_trees_ofTyped rfl t init).symm
    | constructor params body => exact (flatMap_trees_ofCallable params none body).symm
    | method i params returns body | accessor _ i params returns body =>
      exact congrArg (i.tree :: ·) (flatMap_trees_ofCallable params returns body).symm
    | indexSignature => rfl
  | import_ d =>
    simp [parts, trees, binding, Import.trees, List.flatMap_assoc, flatMap_trees_ofSpecifier, List.flatMap_map,
      ← List.map_eq_flatMap]
  | _ => cases h

/-- A part with a span has a tree with this span. -/
theorem trees_of_span? {p : Part} {span : Span} (h : p.span? = some span) : ∃ x : SpanTree, p.trees = [x] ∧ x.span = span := by
  cases p with
  | target t =>
    cases h
    exact ⟨t.tree, rfl, t.span_tree⟩
  | value e =>
    cases h
    exact ⟨e.tree, rfl, e.span_tree⟩
  | _ => exact ⟨_, trees_of_node h, rfl⟩

end Part

/-! ## What is read is built -/

variable {tokens : List Token}

/-- On the tokens of a text, the spans of a part lie over the tokens it was read from. -/
def BuiltAt (tokens : List Token) (p : Part) (s s' : ParserState) : Prop := s.On tokens → Built tokens s s' p.trees

/-- So do the spans of parts that were read one after the other. -/
theorem Along.built {ps : List Part} {s s' : ParserState} (h : Along (BuiltAt tokens) ps s s') (hs : s.On tokens) :
    Built tokens s s' (ps.flatMap Part.trees) := by
  induction h with
  | done hpassed => exact (Built.refl hs).passed hpassed
  | part hbefore _ hp _ ih =>
    have hbuilt := ((Built.refl hs).passed hbefore).append (hp (hbefore.on hs))
    exact hbuilt.append (ih hbuilt.on_state)

/-- The token at the cursor with its span. -/
theorem Built.token {s : ParserState} (hs : s.On tokens) (hk : s.here.kind ≠ .endOfInput) :
    Built tokens s s.next [.node s.here.span []] :=
  ⟨hs, [s.here], passed_here hs.sealed hk, Over.leaf (hs.ascending.1 _ List.mem_cons_self)⟩

/-- What lies over tokens that were read lies under a span that comes from them. -/
theorem Built.extent {ps : List Part} {s s' : ParserState} {span : Span} (h : Built tokens s s' (ps.flatMap Part.trees))
    (hextent : Part.Extent ps s s' span) : Built tokens s s' [.node span (ps.flatMap Part.trees)] := by
  cases hextent with
  | token hk hnext =>
    have hpassed : Passed s [s.here] s' := hnext ▸ passed_here h.on.sealed hk
    have hspan : s.here.span = spanTo s.here.span.start [s.here] :=
      (spanTo_single (h.on.ascending.1 _ List.mem_cons_self)).symm
    have hcovers : Covers id s s.here.span s' := ⟨[s.here], List.cons_ne_nil _ _, hpassed, hspan⟩
    exact h.cover hcovers
  | whole hcovers => exact h.cover (hcovers h.on.sealed)
  | @onward p first hhead hp =>
    obtain ⟨qs, rfl⟩ := List.head?_eq_some_iff.mp hhead
    obtain ⟨x, hx, rfl⟩ := Part.trees_of_span? hp
    rw [List.flatMap_cons, hx] at h ⊢
    exact h.extend
  | @through p q first last hhead hlast hp hq =>
    obtain ⟨qs, rfl⟩ := List.head?_eq_some_iff.mp hhead
    obtain ⟨x, hx, rfl⟩ := Part.trees_of_span? hp
    obtain ⟨y, hy, rfl⟩ := Part.trees_of_span? hq
    have hfinal : ((p :: qs).flatMap Part.trees).getLast? = some y := by
      obtain ⟨init, hinit⟩ := List.getLast?_eq_some_iff.mp hlast
      rw [hinit, List.flatMap_append, List.flatMap_singleton, hy, List.getLast?_concat]
    rw [List.flatMap_cons, hx] at h hfinal ⊢
    exact h.map fun _ hover => hover.join hfinal
  | @again p _ hps hp =>
    obtain ⟨x, hx, rfl⟩ := Part.trees_of_span? hp
    rw [hps, List.flatMap_singleton, hx] at h ⊢
    exact h.map fun _ hover => hover.again

/-- The spans of a part with a span of its own. -/
theorem builtAt_of_node {p : Part} {s s' : ParserState} {span : Span} (hnode : p.node? = some span) (hread : p.ReadAt s s')
    (halong : Along (BuiltAt tokens) p.parts s s') : BuiltAt tokens p s s' := by
  intro hs
  rw [Part.trees_of_node hnode]
  exact (halong.built hs).extent (hread.extent span hnode)

/-- The spans of annotations are built as they are read. -/
theorem typeReading_builtAt : TypeReading (BuiltAt tokens) := by
  intro p s s' hp hread halong
  cases p with
  | name | type => exact builtAt_of_node rfl hread halong
  | _ => cases hp

/-- So are those of an annotation after `as`. The word `const` is an annotation and the name in it. -/
theorem builtAt_target {t : TypeExpr} {s s' : ParserState} (h : asTarget s = .ok t s') :
    BuiltAt tokens (.target t) s s' := by
  intro hs
  rw [asTarget, run_here] at h
  split at h
  · rename_i hk
    rw [run_advance] at h
    obtain ⟨rfl, rfl⟩ := pure_eq_ok.mp h
    exact (Built.token hs (by simp [hk])).map fun _ hover => hover.again
  · have hbuilt := (along_typeExpr typeReading_builtAt h).built hs
    rwa [List.flatMap_singleton] at hbuilt

/-- The spans of every part are built as it is read. -/
theorem reading_builtAt : Reading (BuiltAt tokens) := by
  intro p s s' hread halong
  cases hnode : p.node? with
  | some span => exact builtAt_of_node hnode hread halong
  | none =>
    by_cases htarget : ∃ t, p = .target t
    · obtain ⟨t, rfl⟩ := htarget
      exact builtAt_target hread.own
    · intro hs
      rw [Part.trees_of_node_eq_none hnode (not_exists.mp htarget)]
      exact halong.built hs

/-- The spans of a source text lie over its tokens, whether it was read without errors or not. -/
theorem SourceFile.over_trees (source : String) : Over (tokensOf source) (parse source).file.trees := by
  have hitems : (parse source).file.items = (readTokens (tokensOf source)).1 := rfl
  rw [SourceFile.trees, hitems]
  unfold readTokens
  cases h : Parser.items ⟨Cursor.start (tokensOf source), [], []⟩ with
  | ok is s' =>
    have hon : ParserState.On (tokensOf source) ⟨Cursor.start (tokensOf source), [], []⟩ := on_start
    obtain ⟨ts, hts, hover⟩ := ((along_items reading_builtAt h).built hon).overTokens
    have htrees : (is.map Part.item).flatMap Part.trees = is.map Item.tree := by
      simp [Part.trees, List.flatMap_map, ← List.map_eq_flatMap]
    rw [htrees] at hover
    refine hover.mono fun t ht => ?_
    rw [hon.tokens_eq, hts.tokens]
    simp [ht]
  | error e s' => exact Over.nil _

end ContractCompiler
