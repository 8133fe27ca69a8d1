import ContractCompiler.Proofs.Reading.Along
import ContractCompiler.Proofs.Spans.SpanTree

/-!
# How a file is read, part by part

A file is read in parts: names, annotations, expressions, statements, members, classes and items. The parts of a part were read
one after the other between the states the part itself was read between, in the order of the source. `Reading R` says that a
relation between a part and two states follows from this. What is to be shown of all expressions, statements, members or
classes that are read is then shown part by part, without a look at their parsers.
-/

namespace ContractCompiler

open ContractCompiler.Parser

/-! ## The parts of a tree -/

/-- The block a statement is. -/
def Stmt.block? : Stmt → Option Block
  | .block span stmts => some ⟨stmts, span⟩
  | _ => none

/-- The statement declares a variable, if it is a variable statement. -/
def Stmt.DeclaresSome : Stmt → Prop
  | .var _ _ decls => decls ≠ []
  | _ => True

/-- How an annotation starts at the cursor: a named one with a token that is a name and no type keyword. A union has at least
two members. -/
def TypeExpr.StartsAt (s : ParserState) : TypeExpr → Prop
  | .named _ path _ => ∃ first more, path = first :: more ∧ s.here.kind.typeName? = some first.name ∧
      s.here.kind.typeKeyword? = none
  | .union _ types => ∃ first second more, types = first :: second :: more
  | .keyword .. | .array .. => True

/-- A part of a syntax tree. Of a name it is said which tokens are taken for it. An annotation after `as` is a part of its own
kind, since it may be the word `const`, and so is an expression that stands in no other one. -/
inductive Part where
  | name (name? : TokenKind → Option String) (i : Ident)
  | type (t : TypeExpr)
  | target (t : TypeExpr)
  | expr (e : Expr)
  | value (e : Expr)
  | declarator (d : Declarator)
  | stmt (s : Stmt)
  | block (b : Block)
  | decorator (d : Decorator)
  | param (p : Param)
  | shape (shape : MemberShape)
  | member (m : Member)
  | decl (c : ClassDecl)
  | import_ (d : Import)
  | item (i : Item)

namespace Part

/-- The name of a variable, a parameter or a class. -/
def binding (i : Ident) : Part := .name TokenKind.bindingName? i

/-- The name of a declared member. -/
def declared (i : Ident) : Part := .name TokenKind.declaredName? i

/-- The names of a dotted name, the first of which is as `name?` names it. -/
def ofPath (name? : TokenKind → Option String) (path : List Ident) : List Part :=
  path.head?.toList.map (.name name?) ++ path.tail.map .declared

/-- The parts of an annotation. -/
def ofType : TypeExpr → List Part
  | .keyword .. => []
  | .named _ path args => ofPath TokenKind.typeName? path ++ args.map .type
  | .array _ elem => [.type elem]
  | .union _ types => types.map .type

/-- The parts of an entry of an object literal. A key alone is one place. -/
def ofField (f : Field Expr) : List Part :=
  if f.value.isIdent f.key then [.declared f.key] else [.declared f.key, .expr f.value]

/-- The parts of an expression. -/
def ofExpr : Expr → List Part
  | .literal .. | .this _ | .super _ | .ident _ => []
  | .member _ e i => [.expr e, .name TokenKind.memberName? i]
  | .index _ e key => [.expr e, .expr key]
  | .call _ callee args | .new _ callee args => .expr callee :: args.map .expr
  | .binary _ _ left right => [.expr left, .expr right]
  | .unary _ _ e | .update _ _ _ e | .paren _ e | .nonNull _ e | .optionalChain _ e => [.expr e]
  | .conditional _ test consequent alternate => [.expr test, .expr consequent, .expr alternate]
  | .array _ elements => elements.map .expr
  | .object _ fields => fields.flatMap ofField
  | .asType _ e t => [.expr e, .target t]
  | .satisfiesType _ e t => [.expr e, .type t]

/-- The parts of a name with an annotation and a value. -/
def ofTyped (i : Part) (t : Option TypeExpr) (value : Option Expr) : List Part :=
  i :: (t.toList.map .type ++ value.toList.map .value)

/-- The parts of the parameters, the result and the body of a callable. -/
def ofCallable (params : List Param) (returns : Option TypeExpr) (body : Option Block) : List Part :=
  params.map .param ++ returns.toList.map .type ++ body.toList.map .block

/-- The parts of a statement. -/
def ofStmt : Stmt → List Part
  | .var _ _ decls => decls.map .declarator
  | .expr _ e | .throw _ e => [.value e]
  | .return_ _ e => e.toList.map .value
  | .if_ _ cond thenBranch elseBranch => .value cond :: .stmt thenBranch :: elseBranch.toList.map .stmt
  | .while_ _ cond body => [.value cond, .stmt body]
  | .doWhile _ body cond => [.stmt body, .value cond]
  | .for_ _ init test update body =>
    init.toList.map .stmt ++ test.toList.map .value ++ update.toList.map .value ++ [.stmt body]
  | .forEach _ _ i _ iterable body => [.binding i, .value iterable, .stmt body]
  | .break_ _ | .continue_ _ | .empty _ => []
  | .block _ stmts => stmts.map .stmt

/-- The parts of what a member is. -/
def ofShape : MemberShape → List Part
  | .property i t init => ofTyped (.declared i) t init
  | .constructor params body => ofCallable params none body
  | .method i params returns body | .accessor _ i params returns body => .declared i :: ofCallable params returns body
  | .indexSignature key keyType valueType => [.binding key, .type keyType, .type valueType]

/-- The names of an import specifier. Without `as` they are one. -/
def ofSpecifier (s : ImportSpecifier) : List Part :=
  if s.imported = s.localName then [.declared s.imported] else [.declared s.imported, .binding s.localName]

/-- The parts of what an item is. -/
def ofItem : ItemShape → List Part
  | .class_ c => [.decl c]
  | .import_ d => [.import_ d]
  | .other => []

/-- What stands directly in a part, in the order of the source. -/
def parts : Part → List Part
  | .name .. | .target _ => []
  | .type t => ofType t
  | .expr e => ofExpr e
  | .value e => [.expr e]
  | .declarator d => ofTyped (.binding d.name) d.type d.init
  | .stmt s => ofStmt s
  | .block b => b.stmts.map .stmt
  | .decorator d => .declared d.name :: d.args.toList.flatMap fun es => es.map .value
  | .param p => ofTyped (.binding p.name) p.type p.default
  | .shape m => ofShape m
  | .member m => m.decorators.map .decorator ++ [.shape m.shape]
  | .decl c => c.decorators.map .decorator ++ .binding c.name ::
      (c.base.toList.flatMap (ofPath TokenKind.bindingName?) ++ c.members.map .member)
  | .import_ d => d.default.toList.map .binding ++ d.wholeModule.toList.map .binding ++ d.named.flatMap ofSpecifier
  | .item i => ofItem i.shape

/-- The parts of a path are names. -/
theorem exists_name_of_mem_ofPath {name? : TokenKind → Option String} {path : List Ident} {p : Part}
    (hp : p ∈ ofPath name? path) : ∃ name? i, p = .name name? i := by
  rcases List.mem_append.mp hp with hp | hp
  · obtain ⟨i, -, rfl⟩ := List.mem_map.mp hp
    exact ⟨_, i, rfl⟩
  · obtain ⟨i, -, rfl⟩ := List.mem_map.mp hp
    exact ⟨_, i, rfl⟩

/-- The part is an annotation or a name, as they stand in annotations. -/
def OfType : Part → Prop
  | .name .. | .type _ => True
  | _ => False

/-- What stands in an annotation is an annotation or a name. -/
theorem OfType.parts {p : Part} (hp : p.OfType) : ∀ q ∈ p.parts, q.OfType := by
  cases p with
  | name => exact List.forall_mem_nil _
  | type t =>
    cases t with
    | named span path args =>
      refine List.forall_mem_append.mpr ⟨fun q hq => ?_, by simp [OfType]⟩
      obtain ⟨name?, i, rfl⟩ := exists_name_of_mem_ofPath hq
      trivial
    | _ => simp [Part.parts, ofType, OfType]
  | _ => cases hp

/-- The part is one of those that stand in expressions. -/
def OfExpr : Part → Prop
  | .name .. | .type _ | .target _ | .expr _ => True
  | _ => False

/-- What may stand in an annotation may stand in an expression. -/
theorem OfType.ofExpr {p : Part} (h : p.OfType) : p.OfExpr := by
  cases p with
  | name | type => trivial
  | _ => cases h

theorem OfExpr.parts {p : Part} (hp : p.OfExpr) : ∀ q ∈ p.parts, q.OfExpr := by
  cases p with
  | name | target => exact List.forall_mem_nil _
  | type t => exact fun q hq => (OfType.parts (p := .type t) trivial q hq).ofExpr
  | expr e =>
    cases e with
    | object span fields =>
      refine List.forall_mem_flatMap.mpr fun f _ => ?_
      unfold ofField
      split <;> simp [declared, OfExpr]
    | _ => simp [Part.parts, ofExpr, OfExpr]
  | _ => cases hp

/-- There are only names in an import. -/
theorem ofExpr_of_mem_import {d : Import} : ∀ p ∈ (import_ d).parts, p.OfExpr := by
  have hnames : ∀ o : Option Ident, ∀ p ∈ o.toList.map binding, p.OfExpr := fun _ => List.forall_mem_map.mpr fun _ _ => trivial
  refine List.forall_mem_append.mpr ⟨List.forall_mem_append.mpr ⟨hnames _, hnames _⟩, ?_⟩
  refine List.forall_mem_flatMap.mpr fun specifier _ => ?_
  unfold ofSpecifier
  split <;> simp [declared, binding, OfExpr]

/-- What is gathered elsewhere than in expressions is not found where only parts of expressions are. -/
theorem flatMap_eq_nil_of_ofExpr {β : Type} {g : Part → List β} (hg : ∀ p : Part, p.OfExpr → g p = []) {ps : List Part}
    (h : ∀ p ∈ ps, p.OfExpr) : ps.flatMap g = [] :=
  List.flatMap_eq_nil_iff.mpr fun p hp => hg p (h p hp)

/-- In the names of a base class there are only names. -/
theorem flatMap_base_eq_nil {β : Type} {g : Part → List β} (hg : ∀ p : Part, p.OfExpr → g p = [])
    (base : Option (List Ident)) : (base.toList.flatMap (ofPath TokenKind.bindingName?)).flatMap g = [] := by
  refine flatMap_eq_nil_of_ofExpr hg fun p hp => ?_
  obtain ⟨path, -, hp⟩ := List.mem_flatMap.mp hp
  obtain ⟨name?, i, rfl⟩ := exists_name_of_mem_ofPath hp
  trivial

/-! ## How parts are read -/

/-- The span of a part that has one of its own. -/
def node? : Part → Option Span
  | .name _ i => some i.span
  | .type t => some t.span
  | .expr e => some e.span
  | .declarator d => some d.span
  | .stmt s => some s.span
  | .block b => some b.span
  | .decorator d => some d.span
  | .param p => some p.span
  | .member m => some m.span
  | .decl c => some c.span
  | .item i => some i.span
  | .target _ | .value _ | .shape _ | .import_ _ => none

/-- The span of a part. That of an annotation after `as` and of an expression that stands in no other one is the one they
have anyway. -/
def span? : Part → Option Span
  | .target t => some t.span
  | .value e => some e.span
  | p => p.node?

/-- Where the span of something comes from that was read between the two states and holds `ps`: it is the token at the
cursor, it goes over all that was read, from the start of the first part to the last token, from the first part through the
last one, or it is the span of the only part. -/
inductive Extent (ps : List Part) (s s' : ParserState) : Span → Prop where
  | token : s.here.kind ≠ .endOfInput → s' = s.next → Extent ps s s' s.here.span
  | whole {span : Span} : (s.Sealed → Covers id s span s') → Extent ps s s' span
  | onward {p : Part} {span : Span} : ps.head? = some p → p.span? = some span → Extent ps s s' (s'.spanFrom span.start)
  | through {p q : Part} {first last : Span} : ps.head? = some p → ps.getLast? = some q → p.span? = some first →
      q.span? = some last → Extent ps s s' (first.through last)
  | again {p : Part} {span : Span} : ps = [p] → p.span? = some span → Extent ps s s' span

/-- After the word `new` the callee was read, then what is skipped, and then the arguments. The span goes over all of it. -/
def CalleeRead (span : Span) (callee : Expr) (s s' : ParserState) : Prop :=
  span = s'.spanFrom s.here.span.start ∧ ∃ s₁ s₂, (s.next.Sealed → ∃ ts, Passed s.next ts s₁ ∧
    Phrase false .callee ts callee) ∧ skipAngles s₁ = .ok () s₂ ∧ ∃ us, Passed s₂ us s'

/-- What the parser of a part says of it, besides what stands in it. -/
def Own : Part → ParserState → ParserState → Prop
  | .name name? i, s, s' =>
    s.here.kind ≠ .endOfInput ∧ name? s.here.kind = some i.name ∧ s.here.span = i.span ∧ s' = s.next
  | .type t, s, _ => t.StartsAt s
  | .target t, s, s' => asTarget s = .ok t s'
  | .expr (.new span callee _), s, s' => CalleeRead span callee s s'
  | .value e, s, s' => expression s = .ok e s'
  | .stmt st, s, s' => st.DeclaresSome ∧
      ∀ b ∈ st.block?, ∃ inner, Spans inner Stmt.span ∧ blockOf inner s = .ok b s'
  | .block b, s, s' => ∃ inner, Spans inner Stmt.span ∧ blockOf inner s = .ok b s'
  | .shape m, s, s' => memberShape s = .ok m s'
  | .decl c, s, s' => ∃ decs isAbstract ts s₁, Passed s ts s₁ ∧ s₁.here.kind = .keyword .class_ ∧
      classDecl decs isAbstract s.here.span.start s₁ = .ok c s'
  | .expr _, _, _ | .declarator _, _, _ | .decorator _, _, _ | .param _, _, _ | .member _, _, _ | .import_ _, _, _
  | .item _, _, _ => True

/-- Of a statement that is no block its parser says only that it declares a variable where it must. -/
theorem own_stmt {st : Stmt} {s s' : ParserState} (hblock : st.block? = none) (hsome : st.DeclaresSome) :
    (Part.stmt st).Own s s' := by
  refine ⟨hsome, fun b hb => ?_⟩
  rw [hblock] at hb
  cases hb

/-- How a part was read between the two states. -/
structure ReadAt (p : Part) (s s' : ParserState) : Prop where
  own : p.Own s s'
  extent : ∀ span ∈ p.node?, Extent p.parts s s' span

end Part

/-- The relation holds of a part if it holds along the parts that stand in it. -/
def Reading (R : Part → ParserState → ParserState → Prop) : Prop :=
  ∀ ⦃p : Part⦄ ⦃s s' : ParserState⦄, p.ReadAt s s' → Along R p.parts s s' → R p s s'

/-- The same of annotations and names only. -/
def TypeReading (R : Part → ParserState → ParserState → Prop) : Prop :=
  ∀ ⦃p : Part⦄ ⦃s s' : ParserState⦄, p.OfType → p.ReadAt s s' → Along R p.parts s s' → R p s s'

/-- Where only how the parts follow one another counts. -/
theorem Reading.trivial : Reading fun _ _ _ => True := fun _ _ _ _ _ => True.intro

/-- What is gathered from a part, on a condition on the way it was read, is as `I` says, if it stands in a part of the part
wherever that is not known. -/
theorem Reading.gather {β : Type} {g : Part → List β} {P : ParserState → ParserState → Prop} {I : β → Prop}
    (hP : ∀ {s s₁ s₂ s' : ParserState} {ts us vs : List Token}, Passed s ts s₁ → Passed s₁ us s₂ → Passed s₂ vs s' →
      P s s' → P s₁ s₂)
    (hg : ∀ ⦃p : Part⦄ ⦃s s' : ParserState⦄, p.ReadAt s s' → P s s' → ∀ b ∈ g p, I b ∨ b ∈ p.parts.flatMap g) :
    Reading fun p s s' => P s s' → ∀ b ∈ g p, I b := by
  intro p s s' hread halong hs b hb
  rcases hg hread hs b hb with hb | hb
  · exact hb
  · obtain ⟨q, hq, hb⟩ := List.mem_flatMap.mp hb
    exact halong.forall_mem hP hs q hq b hb

/-- A relation that holds of annotations if it holds along what stands in them can be followed through a whole file. -/
theorem TypeReading.reading {R : Part → ParserState → ParserState → Prop} (hR : TypeReading R) :
    Reading fun p s s' => p.OfType → R p s s' := by
  intro p s s' hread halong hp
  exact hR hp hread (halong.imp fun q hq _ _ h => h (hp.parts q hq))

/-- The parts that stand in the part were read since `s₀`, and its span goes from there to the last token read. -/
structure Part.Ended (R : Part → ParserState → ParserState → Prop) (s₀ : ParserState) (p : Part) (s' : ParserState) :
    Prop where
  along : Along R p.parts s₀ s'
  span_eq : ∀ span ∈ p.node?, span = s'.spanFrom s₀.here.span.start
  own : p.Own s₀ s'

namespace Part.Ended

variable {R : Part → ParserState → ParserState → Prop} {p : Part} {s s' : ParserState}

/-- What ended after a token was read covers the tokens it was read from. -/
theorem covers (h : p.Ended R s s') (htook : Took s s') : ∀ span ∈ p.node?, Covers id s span s' := by
  intro span hspan
  obtain ⟨ts, hne, hts⟩ := htook
  exact ⟨ts, hne, hts, by rw [id, h.span_eq span hspan, hts.spanFrom_eq hne]⟩

/-- A part that took a token is one thing that was read. -/
theorem single (hR : Reading R) (h : p.Ended R s s') (hconsumed : Consumed s s') : Along R [p] s s' :=
  .single hconsumed (hR ⟨h.own, fun span hspan => .whole fun hs => h.covers (hconsumed.took hs) span hspan⟩ h.along)

end Part.Ended

/-- Whatever `p` returns has its parts, and its span, from where `p` starts on. -/
def Completes {α : Type} (R : Part → ParserState → ParserState → Prop) (p : Parser α) (part : α → Part) : Prop :=
  ∀ s s' a, p s = .ok a s' → (part a).Ended R s s'

/-- A parser that looks at the token it starts at. -/
theorem Completes.of_here {α : Type} {R : Part → ParserState → ParserState → Prop} {k : Token → Parser α} {part : α → Part}
    (h : ∀ s₀, Makes R s₀ [] (k s₀.here) fun a s' => (part a).Ended R s₀ s') : Completes R (here >>= k) part :=
  fun s s' a ha => h s s s' a (.refl s) ha

/-- What was read, of which there is some, stands in one part whose span comes from it. -/
theorem Along.enclose {R : Part → ParserState → ParserState → Prop} {p : Part} {pre : List Part} {span : Span}
    {s s' : ParserState} (h : Along R pre s s') (hR : Reading R) (hne : pre ≠ []) (hparts : p.parts = pre)
    (hnode : p.node? = some span) (hextent : Part.Extent pre s s' span) (hown : p.Own s s') : Along R [p] s s' := by
  subst hparts
  refine .single (h.consumed hne) (hR ⟨hown, fun span' hmem => ?_⟩ h)
  rw [hnode] at hmem
  cases hmem
  exact hextent

/-- The token at the cursor as a part of its own. -/
theorem Along.token {R : Part → ParserState → ParserState → Prop} {p : Part} {s : ParserState} (hR : Reading R)
    (hk : s.here.kind ≠ .endOfInput) (hparts : p.parts = []) (hnode : p.node? = some s.here.span) (hown : p.Own s s.next) :
    Along R [p] s s.next := by
  obtain ⟨ts, hts⟩ := passed_next s
  refine .single (consumed_here hk) (hR ⟨hown, fun span hspan => ?_⟩ (hparts ▸ .done hts))
  rw [hnode] at hspan
  cases hspan
  exact .token hk rfl

namespace Makes

variable {α : Type} {R : Part → ParserState → ParserState → Prop} {s₀ : ParserState} {pre : List Part} {start : Nat}
  {g : Span → α} {post : α → List Part}

/-- A value with the parts that were read and the span of all that was read. -/
theorem ended {part : α → Part} (hstart : s₀.here.span.start = start) (hparts : ∀ span, (part (g span)).parts = pre)
    (hnode : ∀ span, (part (g span)).node? = some span) (hown : ∀ span s', (part (g span)).Own s₀ s') :
    Makes R s₀ pre (spanFrom start >>= fun span => Pure.pure (g span)) fun a s' => (part a).Ended R s₀ s' := by
  intro s s' a halong h
  rw [run_spanFrom] at h
  obtain ⟨rfl, rfl⟩ := pure_eq_ok.mp h
  refine ⟨(hparts _).symm ▸ halong, fun span hmem => ?_, hown _ _⟩
  rw [hnode] at hmem
  rw [hstart]
  exact (Option.mem_some_iff.mp hmem).symm

section Closing

variable (hR : Reading R)

include hR

/-- A value with the parts that were read, of which there are some, and the span of all that was read. -/
theorem whole (hstart : s₀.here.span.start = start) (hne : pre ≠ []) (part : Span → Part)
    (hpost : ∀ span, post (g span) = [part span]) (hparts : ∀ span, (part span).parts = pre)
    (hnode : ∀ span, (part span).node? = some span) (hown : ∀ span s', (part span).Own s₀ s') :
    Makes R s₀ pre (spanFrom start >>= fun span => Pure.pure (g span)) fun a s' => Along R (post a) s₀ s' := by
  intro s s' a halong h
  rw [run_spanFrom] at h
  obtain ⟨rfl, rfl⟩ := pure_eq_ok.mp h
  rw [hpost, ← hstart]
  refine Part.Ended.single hR ⟨(hparts _).symm ▸ halong, fun span hmem => ?_, hown _ _⟩ (halong.consumed hne)
  rw [hnode] at hmem
  exact (Option.mem_some_iff.mp hmem).symm

/-- A value with the parts that were read, and the span from the first of them on. -/
theorem onward {p : Part} {first : Span} (part : Span → Part) (hpost : ∀ span, post (g span) = [part span])
    (hparts : ∀ span, (part span).parts = pre) (hfirst : pre.head? = some p) (hp : p.span? = some first)
    (hnode : ∀ span, (part span).node? = some span) (hown : ∀ span s', (part span).Own s₀ s') :
    Makes R s₀ pre (spanFrom first.start >>= fun span => Pure.pure (g span)) fun a s' => Along R (post a) s₀ s' := by
  intro s s' a halong h
  rw [run_spanFrom] at h
  obtain ⟨rfl, rfl⟩ := pure_eq_ok.mp h
  have hne : pre ≠ [] := List.ne_nil_of_mem (List.mem_of_mem_head? hfirst)
  rw [hpost]
  exact halong.enclose hR hne (hparts _) (hnode _) (.onward hfirst hp) (hown _ _)

/-- A value with the parts that were read, and the span from the first through the last of them. -/
theorem through {a : α} {p q : Part} {first last : Span} (part : Part) (hpost : post a = [part]) (hparts : part.parts = pre)
    (hfirst : pre.head? = some p) (hlast : pre.getLast? = some q) (hp : p.span? = some first) (hq : q.span? = some last)
    (hnode : part.node? = some (first.through last)) (hown : ∀ s', part.Own s₀ s') :
    Makes R s₀ pre (Pure.pure a) fun a s' => Along R (post a) s₀ s' := by
  refine value fun s halong => ?_
  have hne : pre ≠ [] := List.ne_nil_of_mem (List.mem_of_mem_head? hfirst)
  rw [hpost]
  exact halong.enclose hR hne hparts hnode (.through hfirst hlast hp hq) (hown _)

/-- A value with the one part that was read, and its span. -/
theorem again {a : α} {p : Part} {span : Span} (part : Part) (hpost : post a = [part]) (hparts : part.parts = [p])
    (hp : p.span? = some span) (hnode : part.node? = some span) (hown : ∀ s', part.Own s₀ s') :
    Makes R s₀ [p] (Pure.pure a) fun a s' => Along R (post a) s₀ s' := by
  refine value fun s halong => ?_
  rw [hpost]
  exact halong.enclose hR (List.cons_ne_nil _ _) hparts hnode (.again rfl hp) (hown _)

end Closing

end Makes

end ContractCompiler
