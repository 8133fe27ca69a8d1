import ContractCompiler.Proofs.Reading.OverTokens

/-!
# The parts of a file read without errors

What holds of an expression, of a block, of a member and of a class as they are read holds of all of them in a file that
was read without errors. For each of the four it is said what is known where it is read.
-/

namespace ContractCompiler

/-! ## The blocks of a tree -/

namespace Stmt

mutual

/-- The blocks a statement holds at any depth, a block before those inside it. -/
def blocks : Stmt → List Block
  | .if_ _ _ thenBranch elseBranch => thenBranch.blocks ++ blocksOption elseBranch
  | .while_ _ _ body | .doWhile _ body _ | .forEach _ _ _ _ _ body => body.blocks
  | .for_ _ init _ _ body => blocksOption init ++ body.blocks
  | .block span stmts => ⟨stmts, span⟩ :: blocksList stmts
  | .var .. | .expr .. | .return_ .. | .break_ _ | .continue_ _ | .throw .. | .empty _ => []

/-- The blocks held by an optional statement. -/
def blocksOption : Option Stmt → List Block
  | none => []
  | some s => s.blocks

/-- The blocks held by a list of statements. -/
def blocksList : List Stmt → List Block
  | [] => []
  | s :: ss => s.blocks ++ blocksList ss

end

/-- The blocks in several statements are those in each. -/
theorem blocksList_eq_flatMap (ss : List Stmt) : blocksList ss = ss.flatMap blocks := by
  induction ss with
  | nil => rfl
  | cons s ss ih => rw [blocksList, ih, List.flatMap_cons]

theorem blocksOption_eq_flatMap (s : Option Stmt) : blocksOption s = s.toList.flatMap blocks := by
  cases s <;> simp [blocksOption]

/-- The blocks of a statement are itself and those of the statements it directly holds. -/
theorem blocks_eq (s : Stmt) : s.blocks = s.block?.toList ++ s.stmts.flatMap blocks := by
  cases s <;> simp [blocks, block?, stmts, blocksList_eq_flatMap, blocksOption_eq_flatMap]

end Stmt

/-- A block and the blocks inside it. -/
def Block.blocks (b : Block) : List Block := b :: b.stmts.flatMap Stmt.blocks

/-- The blocks of a member. -/
def MemberShape.blocks : MemberShape → List Block
  | .constructor _ body | .method _ _ _ body | .accessor _ _ _ _ body => body.toList.flatMap Block.blocks
  | .property .. | .indexSignature .. => []

/-- The blocks of a class. -/
def ClassDecl.blocks (c : ClassDecl) : List Block := c.members.flatMap fun m => m.shape.blocks

/-- The blocks of a file. -/
def SourceFile.blocks (file : SourceFile) : List Block := file.classes.flatMap ClassDecl.blocks

/-! ## What is gathered from the parts -/

/-- The class an item is. -/
def ItemShape.decl? : ItemShape → Option ClassDecl
  | .class_ c => some c
  | .import_ _ | .other => none

namespace Part

/-- The expressions in a part, those inside other expressions included. -/
def subexprs : Part → List Expr
  | .expr e => e.subexprs
  | p => p.exprs.flatMap Expr.subexprs

/-- The blocks in a part. -/
def blocks : Part → List Block
  | .stmt s => s.blocks
  | .block b => b.blocks
  | .shape m => m.blocks
  | .member m => m.shape.blocks
  | .decl c => c.blocks
  | .item i => i.shape.decl?.toList.flatMap ClassDecl.blocks
  | .name .. | .type _ | .target _ | .expr _ | .value _ | .declarator _ | .decorator _ | .param _ | .import_ _ => []

/-- The block a part is. -/
def block? : Part → Option Block
  | .stmt s => s.block?
  | .block b => some b
  | _ => none

/-- The classes in a part. -/
def decls : Part → List ClassDecl
  | .decl c => [c]
  | .item i => i.shape.decl?.toList
  | _ => []

/-- The members in a part. -/
def shapes : Part → List MemberShape
  | .shape m => [m]
  | .member m => [m.shape]
  | .decl c => c.members.map Member.shape
  | .item i => i.shape.decl?.toList.flatMap fun c => c.members.map Member.shape
  | .name .. | .type _ | .target _ | .expr _ | .value _ | .declarator _ | .stmt _ | .block _ | .decorator _ | .param _
  | .import_ _ => []

/-- No block stands in an expression. -/
theorem blocks_eq_nil {p : Part} (hp : p.OfExpr) : p.blocks = [] := by
  cases p with
  | name | type | target | expr => rfl
  | _ => cases hp

theorem flatMap_blocks_ofTyped {i : Part} (hi : i.blocks = []) (t : Option TypeExpr) (value : Option Expr) :
    (ofTyped i t value).flatMap blocks = [] := by
  rw [ofTyped, List.flatMap_cons, hi]
  cases t <;> cases value <;> simp [blocks]

/-- The blocks of a callable are those of its body. -/
theorem flatMap_blocks_ofCallable (params : List Param) (returns : Option TypeExpr) (body : Option Block) :
    (ofCallable params returns body).flatMap blocks = body.toList.flatMap Block.blocks := by
  cases returns <;> simp [ofCallable, blocks, List.flatMap_map]

/-- The blocks in the parts of a statement are those of the statements in it. -/
theorem flatMap_blocks_ofStmt (s : Stmt) : (ofStmt s).flatMap blocks = s.stmts.flatMap Stmt.blocks := by
  cases s with
  | for_ span init test update body =>
    cases test <;> cases update <;> simp [ofStmt, blocks, Stmt.stmts, List.flatMap_map]
  | _ => simp [ofStmt, blocks, Stmt.stmts, binding, List.flatMap_map]

/-- The blocks in a part are the part itself, if it is one, and those in the parts of the part. -/
theorem blocks_eq (p : Part) : p.blocks = p.block?.toList ++ p.parts.flatMap blocks := by
  cases p with
  | name name? i => rfl
  | type t => exact (flatMap_eq_nil_of_ofExpr (fun _ => blocks_eq_nil) (OfExpr.parts (p := .type t) trivial)).symm
  | target t => rfl
  | expr e => exact (flatMap_eq_nil_of_ofExpr (fun _ => blocks_eq_nil) (OfExpr.parts (p := .expr e) trivial)).symm
  | value => rfl
  | declarator d => exact (flatMap_blocks_ofTyped rfl d.type d.init).symm
  | stmt s => rw [parts, flatMap_blocks_ofStmt]; exact s.blocks_eq
  | block b => simp [blocks, block?, parts, Block.blocks, List.flatMap_map]
  | decorator d => simp [blocks, block?, parts, declared, List.flatMap_assoc, List.flatMap_map]
  | param p => exact (flatMap_blocks_ofTyped rfl p.type p.default).symm
  | shape m =>
    cases m with
    | property i t init => exact (flatMap_blocks_ofTyped rfl t init).symm
    | constructor params body => exact (flatMap_blocks_ofCallable params none body).symm
    | method i params returns body | accessor _ i params returns body =>
      exact (flatMap_blocks_ofCallable params returns body).symm
    | indexSignature => rfl
  | member m => simp [blocks, block?, parts, List.flatMap_map]
  | decl c =>
    rw [parts, List.flatMap_append, List.flatMap_cons, List.flatMap_append, flatMap_base_eq_nil fun _ => blocks_eq_nil]
    simp [blocks, block?, ClassDecl.blocks, binding, List.flatMap_map]
  | import_ d => exact (flatMap_eq_nil_of_ofExpr (fun _ => blocks_eq_nil) ofExpr_of_mem_import).symm
  | item i => cases h : i.shape <;> simp [blocks, block?, parts, ofItem, h, ItemShape.decl?]

/-- What stands in an expression of a part stands in the part. -/
theorem mem_subexprs_of_mem_exprs {p : Part} {e x : Expr} (he : e ∈ p.exprs) (hx : x ∈ e.subexprs) : x ∈ p.subexprs := by
  cases p with
  | expr => cases he
  | _ => exact List.mem_flatMap.mpr ⟨e, he, hx⟩

/-- What stands directly in an expression is a part of it. Only for a key of an object literal that is its own value there
is no part besides the key. -/
theorem child_mem_parts {e c : Expr} (hc : c ∈ e.children) : expr c ∈ (expr e).parts ∨ ∃ i, c = .ident i := by
  cases e with
  | object span fields =>
    obtain ⟨f, hf, rfl⟩ := List.mem_map.mp hc
    by_cases hkey : f.value.isIdent f.key = true
    · exact .inr ⟨f.key, Expr.isIdent_eq_true_iff.mp hkey⟩
    · exact .inl (List.mem_flatMap.mpr ⟨f, hf, by simp [ofField, hkey]⟩)
  | literal | ident | this | super => cases hc
  | _ => exact .inl (by simpa [Expr.children, parts, ofExpr] using hc)

/-- An expression in a part is the part itself, a key of an object literal that is its own value, or in a part of the part. -/
theorem mem_subexprs {p : Part} {x : Expr} (hx : x ∈ p.subexprs) :
    p = .expr x ∨ (∃ i, x = .ident i) ∨ x ∈ p.parts.flatMap subexprs := by
  have houtside : ∀ q : Part, (∀ e, q ≠ .value e) → x ∈ q.exprs.flatMap Expr.subexprs → x ∈ q.parts.flatMap subexprs := by
    intro q hq hx
    obtain ⟨e, he, hx⟩ := List.mem_flatMap.mp hx
    obtain ⟨r, hr, he⟩ := List.mem_flatMap.mp ((flatMap_exprs_parts hq).mem_iff.mpr he)
    exact List.mem_flatMap.mpr ⟨r, hr, mem_subexprs_of_mem_exprs he hx⟩
  cases p with
  | expr e =>
    rw [subexprs, Expr.subexprs_eq] at hx
    rcases List.mem_cons.mp hx with rfl | hx
    · exact .inl rfl
    · obtain ⟨c, hc, hx⟩ := List.mem_flatMap.mp hx
      rcases child_mem_parts hc with hpart | ⟨i, rfl⟩
      · exact .inr (.inr (List.mem_flatMap.mpr ⟨.expr c, hpart, hx⟩))
      · exact .inr (.inl ⟨i, List.mem_singleton.mp hx⟩)
  | value e => exact .inr (.inr hx)
  | _ => exact .inr (.inr (houtside _ nofun hx))

/-- The class that an item is, is a part of it. -/
theorem decl_mem_item {i : Item} {c : ClassDecl} (hc : c ∈ i.shape.decl?.toList) : decl c ∈ (item i).parts := by
  cases h : i.shape with
  | class_ c' =>
    rw [h] at hc
    simpa [parts, ofItem, h, ItemShape.decl?] using hc
  | import_ | other =>
    rw [h] at hc
    cases hc

end Part

/-! ## Source texts -/

/-- The parser starts on the tokens of the text. -/
theorem on_start {source : String} : ParserState.On (tokensOf source) ⟨Cursor.start (tokensOf source), [], []⟩ := by
  have hfollow := follow_tokensOf source
  generalize tokensOf source = tokens at hfollow
  cases tokens with
  | nil => cases hfollow
  | cons t ts => exact ⟨hfollow, rfl⟩

/-- A source text read without errors is read to its end. -/
theorem items_of_parse {source : String} (hclean : (parse source).errors = []) :
    ∃ s', Parser.items ⟨Cursor.start (tokensOf source), [], []⟩ = .ok (parse source).file.items s' ∧ s'.errors = [] := by
  have hstate : (readTokens (tokensOf source)).2.errors = [] := by
    have hlength := congrArg List.length hclean
    simp only [parse, sortErrors, List.length_mergeSort, List.length_append, List.length_nil] at hlength
    exact List.length_eq_zero_iff.mp (by unfold tokensOf; omega)
  have hitems : (parse source).file.items = (readTokens (tokensOf source)).1 := rfl
  rw [hitems]
  unfold readTokens at hstate ⊢
  cases h : Parser.items ⟨Cursor.start (tokensOf source), [], []⟩ with
  | ok items s =>
    rw [h] at hstate
    exact ⟨s, rfl, hstate⟩
  | error e s =>
    rw [h] at hstate
    simp at hstate

section

variable {source : String} (hclean : (parse source).errors = [])

include hclean

open ContractCompiler.Parser

/-- What is gathered from the items of a file that was read without errors is as it is known to be where it was read. -/
theorem forall_mem_of_parse {β : Type} {g : Part → List β} {I : β → Prop}
    (hg : ∀ ⦃p : Part⦄ ⦃s s' : ParserState⦄, p.ReadAt s s' → Cleanly (tokensOf source) s s' →
      ∀ b ∈ g p, I b ∨ b ∈ p.parts.flatMap g) :
    ∀ i ∈ (parse source).file.items, ∀ b ∈ g (.item i), I b := by
  obtain ⟨s', hitems, hs'⟩ := items_of_parse hclean
  intro i hi
  have halong := along_items (.gather Cleanly.middle hg) hitems
  exact halong.forall_mem Cleanly.middle ⟨on_start, hs'⟩ (.item i) (List.mem_map_of_mem hi)

/-- What holds of an expression where it is read holds of all in a file that was read without errors. -/
theorem SourceFile.forall_subexprs_of_parse {I : Expr → Prop}
    (hI : ∀ {e : Expr} {s s' : ParserState}, Cleanly (tokensOf source) s s' → (Part.expr e).Own s s' → I e) :
    ∀ e ∈ (parse source).file.exprs.flatMap Expr.subexprs, I e := by
  intro e he
  obtain ⟨x, hx, he⟩ := List.mem_flatMap.mp he
  obtain ⟨i, hi, hx⟩ := List.mem_flatMap.mp hx
  refine forall_mem_of_parse (g := Part.subexprs) hclean (fun p s s' hread hs x hx => ?_) i hi e ?_
  · rcases Part.mem_subexprs hx with rfl | ⟨i, rfl⟩ | hx
    · exact .inl (hI hs hread.own)
    · exact .inl (hI hs trivial)
    · exact .inr hx
  · exact List.mem_flatMap.mpr ⟨x, hx, he⟩

/-- What holds of a block where it is read holds of all in a file that was read without errors. -/
theorem SourceFile.forall_blocks_of_parse {I : Block → Prop}
    (hI : ∀ {inner : Parser Stmt} {b : Block} {s s' : ParserState}, Cleanly (tokensOf source) s s' →
      Spans inner Stmt.span → blockOf inner s = .ok b s' → I b) : ∀ b ∈ (parse source).file.blocks, I b := by
  intro b hb
  obtain ⟨c, hc, hb⟩ := List.mem_flatMap.mp hb
  obtain ⟨i, hi, hshape⟩ := mem_classes.mp hc
  refine forall_mem_of_parse (g := Part.blocks) hclean (fun p s s' hread hs b hb => ?_) i hi b ?_
  · rw [Part.blocks_eq] at hb
    refine (List.mem_append.mp hb).imp_left fun hb => ?_
    obtain ⟨inner, hinner, h⟩ : ∃ inner, Spans inner Stmt.span ∧ blockOf inner s = .ok b s' := by
      cases p with
      | stmt st => exact hread.own.2 b (Option.mem_toList.mp hb)
      | block b' =>
        rw [List.mem_singleton.mp hb]
        exact hread.own
      | _ => cases hb
    exact hI hs hinner h
  · exact List.mem_flatMap.mpr ⟨c, by simp [hshape, ItemShape.decl?], hb⟩

/-- What holds of a member where it is read holds of all in a file that was read without errors. -/
theorem SourceFile.forall_shapes_of_parse {I : MemberShape → Prop}
    (hI : ∀ {m : MemberShape} {s s' : ParserState}, Cleanly (tokensOf source) s s' → memberShape s = .ok m s' → I m) :
    ∀ c ∈ (parse source).file.classes, ∀ m ∈ c.members, I m.shape := by
  intro c hc m hm
  obtain ⟨i, hi, hshape⟩ := mem_classes.mp hc
  refine forall_mem_of_parse (g := Part.shapes) hclean (fun p s s' hread hs m hm => ?_) i hi m.shape ?_
  · cases p with
    | shape m' =>
      rw [List.mem_singleton.mp hm]
      exact .inl (hI hs hread.own)
    | member m' => exact .inr (by simpa [Part.parts, Part.shapes] using hm)
    | decl c =>
      obtain ⟨m', hm', rfl⟩ := List.mem_map.mp hm
      exact .inr (List.mem_flatMap.mpr ⟨.member m', by simp [Part.parts, hm'], List.mem_singleton.mpr rfl⟩)
    | item i =>
      obtain ⟨c, hc, hm⟩ := List.mem_flatMap.mp hm
      exact .inr (List.mem_flatMap.mpr ⟨.decl c, Part.decl_mem_item hc, hm⟩)
    | _ => cases hm
  · exact List.mem_flatMap.mpr ⟨c, by simp [hshape, ItemShape.decl?], List.mem_map_of_mem hm⟩

/-- What holds of a class where it is read, from its word on, holds of all in a file that was read without errors. -/
theorem SourceFile.forall_classes_of_parse {I : ClassDecl → Prop}
    (hI : ∀ {decs : List Decorator} {isAbstract : Bool} {start : Nat} {c : ClassDecl} {s s' : ParserState},
      Cleanly (tokensOf source) s s' → s.here.kind = .keyword .class_ → start ≤ s.here.span.start →
        classDecl decs isAbstract start s = .ok c s' → I c) : ∀ c ∈ (parse source).file.classes, I c := by
  intro c hc
  obtain ⟨i, hi, hshape⟩ := mem_classes.mp hc
  refine forall_mem_of_parse (g := Part.decls) hclean (fun p s s' hread hs c hc => ?_) i hi c ?_
  · cases p with
    | decl c' =>
      rw [List.mem_singleton.mp hc]
      obtain ⟨decs, isAbstract, ts, s₁, hts, hword, h⟩ := hread.own
      exact .inl (hI ⟨hts.on hs.on, hs.clean⟩ hword (hts.start_le hs.on) h)
    | item i => exact .inr (List.mem_flatMap.mpr ⟨.decl c, Part.decl_mem_item hc, List.mem_singleton.mpr rfl⟩)
    | _ => cases hc
  · simp [Part.decls, hshape, ItemShape.decl?]

end

end ContractCompiler
