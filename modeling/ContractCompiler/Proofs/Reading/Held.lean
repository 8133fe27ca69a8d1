import ContractCompiler.Proofs.Reading.DeclarationParts
import ContractCompiler.Proofs.Token.Order
import Mathlib.Data.List.Perm.Subperm

/-!
# The expressions of a tree and their tokens

Every expression of a source file is a phrase of tokens of the file, and no token belongs to two of them: `Held ts es`. Since
a file is read part by part, this holds of the expressions in each part and the tokens the part was read from
(`reading_heldAt`).
-/

namespace ContractCompiler

/-! ## The expressions of a tree -/

/-- The expressions a block holds at any depth. -/
def Block.exprs (b : Block) : List Expr := b.stmts.flatMap Stmt.allExprs

/-- The expressions a decorator holds. -/
def Decorator.exprs (d : Decorator) : List Expr := d.args.toList.flatten

/-- The expressions a member holds besides those of its decorators. -/
def MemberShape.exprs : MemberShape → List Expr
  | .property _ _ init => init.toList
  | .constructor params body | .method _ params _ body | .accessor _ _ params _ body =>
    params.flatMap (fun p => p.default.toList) ++ body.toList.flatMap Block.exprs
  | .indexSignature .. => []

/-- The expressions a member holds. -/
def Member.exprs (m : Member) : List Expr := m.decorators.flatMap Decorator.exprs ++ m.shape.exprs

/-- The expressions a class holds. -/
def ClassDecl.exprs (c : ClassDecl) : List Expr := c.decorators.flatMap Decorator.exprs ++ c.members.flatMap Member.exprs

/-- The expressions an item holds. -/
def ItemShape.exprs : ItemShape → List Expr
  | .class_ decl => decl.exprs
  | .import_ _ | .other => []

/-- The expressions of a file: those not inside another expression. -/
def SourceFile.exprs (file : SourceFile) : List Expr := file.items.flatMap fun i => i.shape.exprs

/-! ## Expressions held by tokens -/

/-- The expressions are phrases of tokens in their order, each token used once. -/
def Held (ts : List Token) (es : List Expr) : Prop :=
  ∃ parts : List (List Token × Expr), es.Subperm (parts.map Prod.snd) ∧
    (∀ p ∈ parts, Phrase false .assignment p.1 p.2 ∧ p.1.Sublist ts) ∧ (parts.flatMap Prod.fst).Subperm ts

namespace Held

variable {ts us : List Token} {es fs : List Expr}

/-- Any tokens hold no expressions. -/
theorem nil (ts : List Token) : Held ts [] := ⟨[], List.Subperm.refl _, nofun, List.nil_subperm⟩

/-- A phrase holds its expression. -/
theorem single {e : Expr} (h : Phrase false .assignment ts e) : Held ts [e] :=
  ⟨[(ts, e)], List.Subperm.refl _, by simpa using h, by simpa using List.Subperm.refl ts⟩

/-- Tokens one after the other hold the expressions of both. -/
theorem append (h : Held ts es) (h' : Held us fs) : Held (ts ++ us) (es ++ fs) := by
  obtain ⟨parts, hes, hparts, hts⟩ := h
  obtain ⟨parts', hfs, hparts', hus⟩ := h'
  refine ⟨parts ++ parts', ?_, ?_, ?_⟩
  · rw [List.map_append]
    exact hes.append hfs
  · intro p hp
    rcases List.mem_append.mp hp with hp | hp
    · exact ⟨(hparts p hp).1, (hparts p hp).2.trans (List.sublist_append_left _ _)⟩
    · exact ⟨(hparts' p hp).1, (hparts' p hp).2.trans (List.sublist_append_right _ _)⟩
  · rw [List.flatMap_append]
    exact hts.append hus

/-- What tokens hold, more tokens hold, and fewer expressions are held too. -/
theorem mono (h : Held ts es) (hts : ts.Sublist us) (hfs : fs.Subperm es) : Held us fs := by
  obtain ⟨parts, hes, hparts, hparts'⟩ := h
  exact ⟨parts, hfs.trans hes, fun p hp => ⟨(hparts p hp).1, (hparts p hp).2.trans hts⟩, hparts'.trans hts.subperm⟩

/-- Each of the expressions is a phrase. -/
theorem phrase (h : Held ts es) {e : Expr} (he : e ∈ es) : ∃ us, us.Sublist ts ∧ Phrase false .assignment us e := by
  obtain ⟨parts, hes, hparts, hts⟩ := h
  obtain ⟨p, hp, rfl⟩ := List.mem_map.mp (hes.subset he)
  exact ⟨p.1, (hparts p hp).2, (hparts p hp).1⟩

/-- The member accesses inside the expressions end at different tokens. -/
theorem memberStops (h : Held ts es) (hts : Ascending ts) : (es.flatMap Expr.memberStops).Subperm (stops ts) := by
  obtain ⟨parts, hes, hparts, hsub⟩ := h
  have hes := subperm_flatMap hes Expr.memberStops
  have hparts : ((parts.map Prod.snd).flatMap Expr.memberStops).Subperm (stops (parts.flatMap Prod.fst)) :=
    stops_subperm fun p hp => (hparts p hp).1.memberStops (hts.sublist (hparts p hp).2)
  exact (hes.trans hparts).trans (stops_subperm_stops hsub)

end Held

/-! ## Parts and their tokens -/

namespace Part

/-- The expressions in a part of a tree that stand in no other expression. -/
def exprs : Part → List Expr
  | .name .. | .type _ | .target _ | .expr _ | .import_ _ => []
  | .value e => [e]
  | .declarator d => d.init.toList
  | .stmt s => s.allExprs
  | .block b => b.exprs
  | .decorator d => d.exprs
  | .param p => p.default.toList
  | .shape m => m.exprs
  | .member m => m.exprs
  | .decl c => c.exprs
  | .item i => i.shape.exprs

/-- What stands in an expression is counted with it. -/
theorem exprs_eq_nil {p : Part} (hp : p.OfExpr) : p.exprs = [] := by
  cases p with
  | name | type | target | expr => rfl
  | _ => cases hp

/-- The only expression besides a name and an annotation is the value. -/
theorem flatMap_exprs_ofTyped {i : Part} (hi : i.exprs = []) (t : Option TypeExpr) (value : Option Expr) :
    (ofTyped i t value).flatMap exprs = value.toList := by
  rw [ofTyped, List.flatMap_cons, hi]
  cases t <;> cases value <;> simp [exprs]

/-- The expressions of a callable are the defaults of its parameters and those in its body. -/
theorem flatMap_exprs_ofCallable (params : List Param) (returns : Option TypeExpr) (body : Option Block) :
    (ofCallable params returns body).flatMap exprs =
      params.flatMap (fun p => p.default.toList) ++ body.toList.flatMap Block.exprs := by
  cases returns <;> simp [ofCallable, exprs, List.flatMap_map]

/-- The expressions of a statement are those of its parts. What a `for` starts with and the condition at the end of a `do`
stand elsewhere in the source. -/
theorem flatMap_exprs_ofStmt (s : Stmt) : ((ofStmt s).flatMap exprs).Perm s.allExprs := by
  cases s with
  | var span kind decls => simp [ofStmt, exprs, Stmt.allExprs, List.flatMap_map, List.filterMap_eq_flatMap_toList]
  | doWhile span body cond =>
    simp only [ofStmt, exprs, Stmt.allExprs, List.flatMap_cons, List.flatMap_nil, List.append_nil]
    exact List.perm_append_singleton cond _
  | for_ span init test update body =>
    simp only [ofStmt, exprs, Stmt.allExprs, Stmt.allExprsOption_eq_flatMap, List.flatMap_append, List.flatMap_map,
      List.flatMap_singleton', List.flatMap_singleton, ← List.append_assoc]
    refine List.Perm.append_right _ ?_
    rw [List.append_assoc (init.toList.flatMap _)]
    exact List.perm_append_comm
  | _ => simp [ofStmt, exprs, Stmt.allExprs, Stmt.allExprsOption_eq_flatMap, Stmt.allExprsList_eq_flatMap, binding,
      List.flatMap_map]

/-- The expressions of a part that is none are those of the parts in it. -/
theorem flatMap_exprs_parts {p : Part} (hp : ∀ e, p ≠ .value e) : (p.parts.flatMap exprs).Perm p.exprs := by
  cases p with
  | name | type | target | expr => exact .of_eq (flatMap_eq_nil_of_ofExpr (fun _ => exprs_eq_nil) (OfExpr.parts trivial))
  | value e => exact absurd rfl (hp e)
  | declarator d => exact .of_eq (flatMap_exprs_ofTyped rfl d.type d.init)
  | stmt s => exact flatMap_exprs_ofStmt s
  | block b => exact .of_eq (by simp [parts, exprs, Block.exprs, List.flatMap_map])
  | decorator d => exact .of_eq (by simp [parts, exprs, Decorator.exprs, declared, List.flatMap_map, List.flatMap_assoc])
  | param p => exact .of_eq (flatMap_exprs_ofTyped rfl p.type p.default)
  | shape m =>
    cases m with
    | property i t init => exact .of_eq (flatMap_exprs_ofTyped rfl t init)
    | constructor params body => exact .of_eq (flatMap_exprs_ofCallable params none body)
    | method i params returns body | accessor _ i params returns body =>
      exact .of_eq (flatMap_exprs_ofCallable params returns body)
    | indexSignature => exact .nil
  | member m => exact .of_eq (by simp [parts, exprs, Member.exprs, List.flatMap_map])
  | decl c =>
    rw [parts, List.flatMap_append, List.flatMap_cons, List.flatMap_append, flatMap_base_eq_nil fun _ => exprs_eq_nil]
    exact .of_eq (by simp [exprs, ClassDecl.exprs, binding, List.flatMap_map])
  | import_ d => exact .of_eq (flatMap_eq_nil_of_ofExpr (fun _ => exprs_eq_nil) ofExpr_of_mem_import)
  | item i =>
    cases h : i.shape with
    | class_ c => exact .of_eq (by simp [parts, ofItem, exprs, h, ItemShape.exprs])
    | import_ d => exact .of_eq (by simp [parts, ofItem, exprs, h, ItemShape.exprs])
    | other => exact .of_eq (by simp [parts, ofItem, exprs, h, ItemShape.exprs])

end Part

/-- Between the two states the expressions of the part were read. -/
def Part.HeldAt (p : Part) (s s' : ParserState) : Prop := s.Sealed → ∃ ts, Passed s ts s' ∧ Held ts p.exprs

/-- What parts hold that were read one after the other is held by all the tokens. -/
theorem Along.held {ps : List Part} {s s' : ParserState} (h : Along Part.HeldAt ps s s') (hs : s.Sealed) :
    ∃ ts, Passed s ts s' ∧ Held ts (ps.flatMap Part.exprs) := by
  induction h with
  | done hpassed => exact ⟨_, hpassed, Held.nil _⟩
  | part hbefore _ hpart _ ih =>
    have hs₁ := hbefore.sealed hs
    obtain ⟨us, hus, hheld⟩ := hpart hs₁
    obtain ⟨vs, hvs, hrest⟩ := ih (hus.sealed hs₁)
    refine ⟨_, hbefore.trans (hus.trans hvs), ?_⟩
    exact (hheld.append hrest).mono (List.sublist_append_right _ _) (List.Subperm.refl _)

/-- Every part is held by the tokens it was read from. -/
theorem reading_heldAt : Reading Part.HeldAt := by
  intro p s s' hread halong hs
  by_cases hexpr : ∃ e, p = .value e
  · obtain ⟨e, rfl⟩ := hexpr
    obtain ⟨ts, hts, hphrase⟩ := (Parser.got_expression hs hread.own).loose
    exact ⟨ts, hts, Held.single hphrase⟩
  · obtain ⟨ts, hts, hheld⟩ := halong.held hs
    refine ⟨ts, hts, hheld.mono (List.Sublist.refl _) (Part.flatMap_exprs_parts ?_).symm.subperm⟩
    exact fun e he => hexpr ⟨e, he⟩

/-- The expressions of what was read from a list of tokens are held by the tokens before the last one. -/
theorem held_readTokens {tokens : List Token} (hend : ∀ t, tokens.getLast? = some t → t.kind = .endOfInput) :
    Held tokens.dropLast (SourceFile.exprs ⟨(readTokens tokens).1⟩) := by
  unfold readTokens
  split
  · rename_i items s' h
    have hs : ParserState.Sealed ⟨Cursor.start tokens, [], []⟩ := by
      cases tokens with
      | nil => intro t ht; cases ht; rfl
      | cons t ts => exact hend
    obtain ⟨ts, hts, hheld⟩ := (Parser.along_items reading_heldAt h).held hs
    rw [List.flatMap_map] at hheld
    refine hheld.mono ?_ (List.Subperm.refl _)
    have htokens := hts.tokens
    cases tokens with
    | nil =>
      have hnil : ts = [] := by
        have := congrArg List.length htokens
        simp [Cursor.start] at this
        exact List.length_eq_zero_iff.mp (by omega)
      rw [hnil]
      exact List.nil_sublist _
    | cons t rest =>
      have : t :: rest = ts ++ s'.here :: s'.ahead := htokens
      rw [this, List.dropLast_append_of_ne_nil (by simp)]
      exact List.sublist_append_left _ _
  · exact Held.nil _

/-! ## Source texts -/

/-- The tokens of a source text. -/
def tokensOf (source : String) : List Token := (Token.scan source).map Token.Scanned.token

/-- The tokens of a source text follow one another. -/
theorem follow_tokensOf (source : String) : Token.Follow 0 (tokensOf source) := Token.follow_scanFrom 0 source.toList

/-- The expressions of a parsed file are held by the tokens of its source text. -/
theorem held_parse (source : String) : Held (tokensOf source).dropLast (parse source).file.exprs :=
  held_readTokens (follow_tokensOf source).getLast

/-- No two member accesses of a parsed file end at the same place. -/
theorem memberStops_nodup (source : String) : ((parse source).file.exprs.flatMap Expr.memberStops).Nodup := by
  have hfollow := follow_tokensOf source
  obtain ⟨stops', hperm, hsub⟩ := (held_parse source).memberStops hfollow.ascending
  exact hperm.nodup_iff.mp (hfollow.stops_nodup.sublist hsub)

end ContractCompiler
