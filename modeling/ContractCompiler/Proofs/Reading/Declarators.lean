import ContractCompiler.Proofs.Reading.DeclarationParts

/-!
# What declarations are read from

Whatever is declared in a file, with or without errors around it, has its names from the tokens: a class, a member, a
parameter and a variable their own, and an annotation those it starts with. And every variable statement declares at least
one variable.
-/

namespace ContractCompiler

/-! ## Statements of a tree -/

namespace Stmt

/-- The statement and every statement inside it are as `P` says. -/
inductive Throughout (P : Stmt → Prop) : Stmt → Prop
  | intro {s : Stmt} (own : P s) (parts : ∀ t ∈ s.stmts, Throughout P t) : Throughout P s

/-- What holds throughout a statement holds of it. -/
theorem Throughout.own {P : Stmt → Prop} {s : Stmt} (h : s.Throughout P) : P s := by
  cases h with
  | intro own _ => exact own

theorem Throughout.parts {P : Stmt → Prop} {s : Stmt} (h : s.Throughout P) : ∀ t ∈ s.stmts, t.Throughout P := by
  cases h with
  | intro _ parts => exact parts

/-- What follows from it holds throughout the statement too. -/
theorem Throughout.imp {P Q : Stmt → Prop} (hPQ : ∀ s, P s → Q s) {s : Stmt} (h : s.Throughout P) : s.Throughout Q := by
  induction h with
  | intro own _ ih => exact .intro (hPQ _ own) ih

end Stmt

/-- The statements of the body of a member. -/
def MemberShape.stmts : MemberShape → List Stmt
  | .constructor _ body | .method _ _ _ body | .accessor _ _ _ _ body => body.toList.flatMap Block.stmts
  | .property .. | .indexSignature .. => []

/-- Every variable statement in the member declares a variable. -/
def MemberShape.DeclaresVariables (shape : MemberShape) : Prop := ∀ s ∈ shape.stmts, s.Throughout Stmt.DeclaresSome

/-- Every variable statement in the class declares a variable. -/
def ClassDecl.DeclaresVariables (c : ClassDecl) : Prop := ∀ m ∈ c.members, m.shape.DeclaresVariables

/-! ## Declarations and tokens -/

/-- The name was read from one of the tokens, as `name?` names it. -/
def Ident.ReadBy (G : Token → Prop) (name? : TokenKind → Option String) (i : Ident) : Prop :=
  ∃ t, G t ∧ t.span = i.span ∧ name? t.kind = some i.name

/-- Every name in the annotation starts with one that was read from the tokens. -/
inductive TypeExpr.ReadFrom (G : Token → Prop) : TypeExpr → Prop where
  | keyword {span : Span} {word : TypeKeyword} : ReadFrom G (.keyword span word)
  | named {span : Span} {first : Ident} {more : List Ident} {args : List TypeExpr} :
      first.ReadBy G TokenKind.typeName? → (∀ a ∈ args, a.ReadFrom G) → ReadFrom G (.named span (first :: more) args)
  | array {span : Span} {elem : TypeExpr} : elem.ReadFrom G → ReadFrom G (.array span elem)
  | union {span : Span} {types : List TypeExpr} : (∀ t ∈ types, t.ReadFrom G) → ReadFrom G (.union span types)

/-- The variable and its annotation were read from the tokens. -/
structure Declarator.ReadFrom (G : Token → Prop) (d : Declarator) : Prop where
  name : d.name.ReadBy G TokenKind.bindingName?
  type : ∀ t ∈ d.type, t.ReadFrom G

/-- The parameter and its annotation were read from the tokens. -/
structure Param.ReadFrom (G : Token → Prop) (p : Param) : Prop where
  name : p.name.ReadBy G TokenKind.bindingName?
  type : ∀ t ∈ p.type, t.ReadFrom G

/-- The statement declares a variable, and those it declares were read from the tokens, if it is a variable statement. -/
def Stmt.DeclaresFrom (G : Token → Prop) : Stmt → Prop
  | .var _ _ decls => decls ≠ [] ∧ ∀ d ∈ decls, d.ReadFrom G
  | _ => True

namespace MemberShape

/-- The name that a member declares. -/
def name? : MemberShape → Option Ident
  | .property name .. | .method name .. | .accessor _ name .. => some name
  | .constructor .. | .indexSignature .. => none

/-- The parameters of a member. -/
def params : MemberShape → List Param
  | .constructor params _ | .method _ params .. | .accessor _ _ params .. => params
  | .property .. | .indexSignature .. => []

/-- The annotation of a property, or of a result. -/
def type? : MemberShape → Option TypeExpr
  | .property _ type _ | .method _ _ type _ | .accessor _ _ _ type _ => type
  | .constructor .. | .indexSignature .. => none

/-- What the member declares was read from the tokens. -/
structure ReadFrom (G : Token → Prop) (shape : MemberShape) : Prop where
  name : ∀ i ∈ shape.name?, i.ReadBy G TokenKind.declaredName?
  params : ∀ p ∈ shape.params, p.ReadFrom G
  type : ∀ t ∈ shape.type?, t.ReadFrom G
  stmts : ∀ s ∈ shape.stmts, s.Throughout (Stmt.DeclaresFrom G)

end MemberShape

/-- What the class declares was read from the tokens. -/
structure ClassDecl.ReadFrom (G : Token → Prop) (c : ClassDecl) : Prop where
  name : c.name.ReadBy G TokenKind.bindingName?
  members : ∀ m ∈ c.members, m.shape.ReadFrom G

/-- A class whose declarations were read declares a variable in every variable statement. -/
theorem ClassDecl.ReadFrom.declaresVariables {G : Token → Prop} {c : ClassDecl} (h : c.ReadFrom G) :
    c.DeclaresVariables := by
  refine fun m hm s hs => ((h.members m hm).stmts s hs).imp fun t ht => ?_
  cases t with
  | var => exact ht.1
  | _ => trivial

/-! ## Parts -/

/-- A statement that stands directly in another one is a part of it. -/
theorem Part.stmt_mem_ofStmt {s t : Stmt} (h : t ∈ s.stmts) : Part.stmt t ∈ Part.ofStmt s := by
  cases s with
  | if_ | while_ | doWhile | for_ | forEach | block => simpa [Part.ofStmt, Stmt.stmts, Part.binding] using h
  | _ => cases h

/-- What a part declares was read from the tokens. -/
def Part.ReadFrom (G : Token → Prop) : Part → Prop
  | .name name? i => i.ReadBy G name?
  | .type t => t.ReadFrom G
  | .declarator d => d.ReadFrom G
  | .stmt s => s.Throughout (Stmt.DeclaresFrom G)
  | .block b => ∀ s ∈ b.stmts, s.Throughout (Stmt.DeclaresFrom G)
  | .param p => p.ReadFrom G
  | .shape m => m.ReadFrom G
  | .member m => m.shape.ReadFrom G
  | .decl c => c.ReadFrom G
  | .item i => ∀ c, i.shape = .class_ c → c.ReadFrom G
  | .target _ | .expr _ | .value _ | .decorator _ | .import_ _ => True

/-- The tokens ahead of the first state are as `G` says. -/
def Ahead (G : Token → Prop) (s _ : ParserState) : Prop := ∀ t ∈ s.here :: s.ahead, G t

theorem Ahead.middle {G : Token → Prop} {s s₁ s₂ s' : ParserState} {ts us vs : List Token} (hts : Passed s ts s₁)
    (_ : Passed s₁ us s₂) (_ : Passed s₂ vs s') (h : Ahead G s s') : Ahead G s₁ s₂ :=
  fun t ht => h t (hts.tokens ▸ List.mem_append_right _ ht)

section Reading

variable {G : Token → Prop}

/-- An annotation was read from the tokens if those in it were. -/
theorem Part.readFrom_type {t : TypeExpr} {s : ParserState} (hstart : t.StartsAt s)
    (h : ∀ p ∈ Part.ofType t, p.ReadFrom G) : t.ReadFrom G := by
  cases t with
  | keyword => exact .keyword
  | named span path args =>
    obtain ⟨first, more, rfl, -⟩ := hstart
    obtain ⟨hpath, hargs⟩ := List.forall_mem_append.mp h
    exact .named (hpath (.name _ first) (by simp [ofPath])) fun a ha => hargs (.type a) (List.mem_map_of_mem ha)
  | array span elem => exact .array (h (.type elem) List.mem_cons_self)
  | union span types => exact .union fun t ht => h (.type t) (List.mem_map_of_mem ht)

theorem Part.readFrom_stmt {s : Stmt} (hsome : s.DeclaresSome) (h : ∀ p ∈ Part.ofStmt s, p.ReadFrom G) :
    (Part.stmt s).ReadFrom G := by
  refine .intro ?_ fun t ht => h _ (stmt_mem_ofStmt ht)
  cases s with
  | var span kind decls => exact ⟨hsome, fun d hd => h (.declarator d) (List.mem_map_of_mem hd)⟩
  | _ => trivial

/-- What a callable declares besides its name. -/
theorem Part.readFrom_callable {params : List Param} {returns : Option TypeExpr} {body : Option Block}
    (h : ∀ p ∈ Part.ofCallable params returns body, p.ReadFrom G) :
    (∀ p ∈ params, p.ReadFrom G) ∧ (∀ t ∈ returns, t.ReadFrom G) ∧
      ∀ s ∈ body.toList.flatMap Block.stmts, s.Throughout (Stmt.DeclaresFrom G) := by
  simp only [ofCallable, List.mem_append, List.mem_map, Option.mem_toList] at h
  refine ⟨fun p hp => h (.param p) (.inl (.inl ⟨p, hp, rfl⟩)), fun t ht => h (.type t) (.inl (.inr ⟨t, ht, rfl⟩)), ?_⟩
  intro s hs
  obtain ⟨b, hb, hs⟩ := List.mem_flatMap.mp hs
  exact h (.block b) (.inr ⟨b, Option.mem_toList.mp hb, rfl⟩) s hs

theorem Part.readFrom_shape {m : MemberShape} (h : ∀ p ∈ Part.ofShape m, p.ReadFrom G) : m.ReadFrom G := by
  cases m with
  | property i t init =>
    obtain ⟨hname, htyped⟩ := List.forall_mem_cons.mp h
    refine ⟨fun j hj => Option.some.inj hj ▸ hname, nofun, fun u hu => htyped (.type u) ?_, nofun⟩
    exact List.mem_append_left _ (List.mem_map_of_mem (Option.mem_toList.mpr hu))
  | constructor params body =>
    obtain ⟨hparams, -, hbody⟩ := readFrom_callable h
    exact ⟨nofun, hparams, nofun, hbody⟩
  | method i params returns body | accessor _ i params returns body =>
    obtain ⟨hname, hcallable⟩ := List.forall_mem_cons.mp h
    obtain ⟨hparams, hreturns, hbody⟩ := readFrom_callable hcallable
    exact ⟨fun j hj => Option.some.inj hj ▸ hname, hparams, hreturns, hbody⟩
  | indexSignature => exact ⟨nofun, nofun, nofun, nofun⟩

/-- A name with an annotation was read from the tokens. -/
theorem Part.readFrom_typed {i : Part} {t : Option TypeExpr} {value : Option Expr}
    (h : ∀ p ∈ Part.ofTyped i t value, p.ReadFrom G) : i.ReadFrom G ∧ ∀ u ∈ t, u.ReadFrom G := by
  obtain ⟨hname, htyped⟩ := List.forall_mem_cons.mp h
  refine ⟨hname, fun u hu => htyped (.type u) ?_⟩
  exact List.mem_append_left _ (List.mem_map_of_mem (Option.mem_toList.mpr hu))

/-- Before tokens that are as `G` says, what is declared is read from such tokens. -/
theorem reading_readFrom : Reading fun p s s' => Ahead G s s' → p.ReadFrom G := by
  intro p s s' hread halong hG
  have hparts : ∀ q ∈ p.parts, q.ReadFrom G := halong.forall_mem Ahead.middle hG
  cases p with
  | name name? i =>
    obtain ⟨-, hname, hspan, -⟩ := hread.own
    exact ⟨s.here, hG _ List.mem_cons_self, hspan, hname⟩
  | type t => exact Part.readFrom_type hread.own hparts
  | declarator d =>
    obtain ⟨hname, htype⟩ := Part.readFrom_typed hparts
    exact ⟨hname, htype⟩
  | stmt st => exact Part.readFrom_stmt hread.own.1 hparts
  | block b => exact fun st hst => hparts (.stmt st) (List.mem_map_of_mem hst)
  | param p =>
    obtain ⟨hname, htype⟩ := Part.readFrom_typed hparts
    exact ⟨hname, htype⟩
  | shape m => exact Part.readFrom_shape hparts
  | member m => exact hparts (.shape m.shape) (by simp [Part.parts])
  | decl c => exact ⟨hparts (.binding c.name) (by simp [Part.parts]), fun m hm => hparts (.member m) (by simp [Part.parts, hm])⟩
  | item i => exact fun c hc => hparts (.decl c) (by simp [Part.parts, hc, Part.ofItem])
  | target | expr | value | decorator | import_ => trivial

end Reading

/-- What the classes read from some tokens declare was read from them. -/
theorem readFrom_readTokens {G : Token → Prop} {tokens : List Token}
    (hG : ∀ t ∈ (Cursor.start tokens).here :: (Cursor.start tokens).ahead, G t) {c : ClassDecl}
    (hc : c ∈ SourceFile.classes ⟨(readTokens tokens).1⟩) : c.ReadFrom G := by
  obtain ⟨i, hi, hshape⟩ := SourceFile.mem_classes.mp hc
  unfold readTokens at hi
  split at hi
  · rename_i items s' h
    exact (Parser.along_items reading_readFrom h).forall_mem Ahead.middle hG (.item i) (List.mem_map_of_mem hi) c hshape
  · cases hi

/-- In the classes read from any tokens, every variable statement declares a variable. -/
theorem declaresVariables_readTokens {tokens : List Token} {c : ClassDecl}
    (hc : c ∈ SourceFile.classes ⟨(readTokens tokens).1⟩) : c.DeclaresVariables :=
  (readFrom_readTokens (G := fun _ => True) (fun _ _ => trivial) hc).declaresVariables

end ContractCompiler
