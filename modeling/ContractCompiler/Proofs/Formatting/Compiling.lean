import ContractCompiler.Proofs.Emission
import ContractCompiler.Proofs.Formatting.Grammar
import ContractCompiler.Proofs.Formatting.Outline
import ContractCompiler.Proofs.Formatting.Rows

/-!
# Formatting does not matter

What a source text is read as, and what is compiled from it, depends only on the outline of its tokens, up to places. Reading
the text is reading the spread of the outline, moved; the classes so moved are bound and written as the classes are, and the
sink is handed the same contracts. So two texts with one outline compile alike.
-/

namespace ContractCompiler

/-! ## Reading -/

/-- No two tokens of a text start at the same place. -/
theorem Token.Follow.starts_nodup {offset : Nat} {ts : List Token} (h : Follow offset ts) :
    (ts.map fun t => t.span.start).Nodup := by
  induction h with
  | last => exact List.nodup_singleton _
  | cons _ hlt _ h ih =>
    refine List.nodup_cons.mpr ⟨fun hmem => ?_, ih⟩
    obtain ⟨u, hu, heq⟩ := List.mem_map.mp hmem
    exact Nat.not_lt_of_le (h.le_start u hu) (Nat.lt_of_le_of_lt (Nat.le_of_eq heq) hlt)

/-- Errors at tokens keep their order when the tokens are moved and still follow one another. -/
theorem Reformatting.sortErrors_move (R : Reformatting) {offset : Nat} (hR : Token.Follow offset (move R.place R.tokens))
    {errors : List ParseError} (h : ∀ e ∈ errors, e.At R.tokens) :
    sortErrors (move R.place errors) = move R.place (sortErrors errors) := by
  have hnodup : (R.tokens.map fun t => R.place t.span.start).Nodup := by
    have hstarts := hR.starts_nodup
    rwa [show move R.place R.tokens = R.tokens.map (move R.place) from rfl, List.map_map] at hstarts
  refine (List.map_mergeSort fun a ha b hb => ?_).symm
  obtain ⟨t, ht, hat⟩ := h a ha
  obtain ⟨u, hu, hbu⟩ := h b hb
  show decide (a.span.start ≤ b.span.start) = decide (R.place a.span.start ≤ R.place b.span.start)
  rw [hat, hbu, decide_eq_decide]
  refine ⟨fun hle => R.mono hle, fun hle => Nat.le_of_not_lt fun hlt => ?_⟩
  have heq := List.inj_on_of_nodup_map hnodup ht hu (Nat.le_antisymm hle (R.mono (Nat.le_of_lt hlt)))
  rw [heq] at hlt
  exact Nat.lt_irrefl _ hlt

/-- What the spread of an outline is read as: the file, and the errors in their order. -/
def readOutline (os : List Token.Outline) : SourceFile × List ParseError :=
  let (items, state) := readTokens (Token.spread 0 os)
  (⟨items⟩, sortErrors state.errors)

/-- A source text is read as its outline is, moved. -/
theorem exists_parse_eq_move {source : String} (h : lexErrors (Token.scan source) = []) :
    ∃ place : Nat → Nat, ((parse source).file, (parse source).errors) =
      move place (readOutline (Token.outline (tokensOf source))) := by
  obtain ⟨R, htokens, hplace⟩ := exists_reformatting (follow_tokensOf source)
  have hne : R.tokens ≠ [] := by
    intro hnil
    have hfollow := follow_tokensOf source
    rw [← hplace, hnil] at hfollow
    cases hfollow
  obtain ⟨hread, herrors⟩ := R.readTokens_move hne
  have hsort := R.sortErrors_move (hplace ▸ follow_tokensOf source) herrors
  rw [hplace] at hread
  refine ⟨R.place, ?_⟩
  have hfile : (parse source).file = ⟨(readTokens (tokensOf source)).1⟩ := rfl
  have herrs : (parse source).errors =
      sortErrors (lexErrors (Token.scan source) ++ (readTokens (tokensOf source)).2.errors) := rfl
  rw [hfile, herrs, h, hread, List.nil_append, readOutline, ← htokens]
  exact congrArg (Prod.mk _) hsort

/-! ## Writing and emitting -/

variable {f : Nat → Nat} {b b' : Bindings} {σ : Type}

/-- It makes no difference whether the failure or the value is changed first. -/
theorem map_mapError {ε ε' α β : Type} (x : Except ε α) (g : ε → ε') (k : α → β) :
    (x.mapError g).map k = (x.map k).mapError g := by
  cases x <;> rfl

/-- The contract of a moved class is that of the class, or its failure is moved. -/
theorem ClassDecl.render_move {c : ClassDecl} (hc : c.DeclaresVariables) (hmoved : (move f c).DeclaresVariables)
    (h : ∀ m ∈ c.members, ∀ e ∈ m.shape.exprs, e.BoundAlike f b' b) (indent : String) :
    (move f c).render indent b' = (c.render indent b).mapError (move f) := by
  rw [render_eq_rows hmoved, render_eq_rows hc, rows_move h]
  exact map_mapError _ _ _

/-- Moved classes are handed over as the classes are, and a failure is the same, moved. -/
theorem emitClasses_move (sink : Sink σ) {indent : String} {decls : List ClassDecl}
    (h : ∀ c ∈ decls, (move f c).render indent b' = (c.render indent b).mapError (move f)) (held : σ) :
    (emitClasses sink indent b' (move f decls) held).sink = (emitClasses sink indent b decls held).sink ∧
      (emitClasses sink indent b' (move f decls) held).result =
        (emitClasses sink indent b decls held).result.mapError (move f) := by
  induction decls generalizing held with
  | nil => exact ⟨rfl, rfl⟩
  | cons c decls ih =>
    obtain ⟨hc, hdecls⟩ := List.forall_mem_cons.mp h
    show (emitClasses sink indent b' (move f c :: move f decls) held).sink = _ ∧
      (emitClasses sink indent b' (move f c :: move f decls) held).result = _
    cases hrender : c.render indent b with
    | error err =>
      have hmoved : (move f c).render indent b' = .error (move f err) := by rw [hc, hrender]; rfl
      simp only [emitClasses, hmoved, hrender]
      exact ⟨trivial, rfl⟩
    | ok contract =>
      have hmoved : (move f c).render indent b' = .ok contract := by rw [hc, hrender]; rfl
      obtain ⟨hsink, hresult⟩ := ih hdecls (sink.emit held contract).state
      cases hfailure : (sink.emit held contract).failure with
      | some reason =>
        simp only [emitClasses, hmoved, hrender, hfailure]
        exact ⟨trivial, rfl⟩
      | none =>
        simp only [emitClasses, hmoved, hrender, hfailure, hresult]
        exact ⟨hsink, map_mapError _ _ _⟩

/-- A file that was read, moved to where it was read from, is compiled as the file itself. -/
theorem compileFile_move {os : List Token.Outline} {source : String}
    (h : (parse source).file = move f (readOutline os).1) (options : Options) (sink : Sink σ) (held : σ) :
    (compileFile (parse source).file options sink held).sink = (compileFile (readOutline os).1 options sink held).sink ∧
      (compileFile (parse source).file options sink held).result =
        (compileFile (readOutline os).1 options sink held).result.mapError (move f) := by
  have hrender : ∀ c ∈ (ClassTable.ofFile (readOutline os).1).classes,
      (move f c).render options.indent ((move f (readOutline os).1).bindings options.receiver) =
        (c.render options.indent ((readOutline os).1.bindings options.receiver)).mapError (move f) := by
    intro c hc
    have hclass : c ∈ (readOutline os).1.classes := ClassTable.mem_of_mem_classes hc
    have hmoved : move f c ∈ (parse source).file.classes := by
      rw [h, SourceFile.classes_move]
      exact List.mem_map_of_mem hclass
    refine ClassDecl.render_move (declaresVariables_readTokens hclass) (declaresVariables_readTokens hmoved)
      (fun m hm e he => SourceFile.boundAlike h options.receiver ?_) options.indent
    rw [SourceFile.exprs_eq]
    refine List.mem_flatMap.mpr ⟨c, hclass, List.mem_append_right _ ?_⟩
    exact List.mem_flatMap.mpr ⟨m, hm, List.mem_append_right _ he⟩
  have hrun := emitClasses_move sink hrender held
  unfold compileFile
  rw [h, ClassTable.ofFile_move]
  exact hrun

/-! ## Compiling -/

/-- The failure without places, and without the source text. -/
def Failure.bare : Failure → Failure
  | .load (.read path error) => .load (.read path error)
  | .load (.parse path _ errors) => .load (.parse path "" (unplaced errors))
  | .compile error => .compile (unplaced error)

/-- Compiles what the spread of an outline is read as. -/
def compileOutline (path : String) (os : List Token.Outline) (options : Options) (sink : Sink σ) (held : σ) :
    Run Failure σ :=
  let (file, errors) := readOutline os
  let result := if errors.isEmpty then .ok ⟨path, "", file⟩ else .error (.parse path "" errors)
  compileLoaded ⟨result, []⟩ options sink held

/-- A source text is compiled as its outline is, up to places and the text itself. -/
theorem compileSource_eq_compileOutline {source : String} (h : lexErrors (Token.scan source) = []) (path : String)
    (options : Options) (sink : Sink σ) (held : σ) :
    let run := compileSource path source options sink held
    let outlined := compileOutline path (Token.outline (tokensOf source)) options sink held
    run.sink = outlined.sink ∧ run.result.mapError Failure.bare = outlined.result.mapError Failure.bare := by
  obtain ⟨place, hparse⟩ := exists_parse_eq_move h
  obtain ⟨hfile, herrors⟩ := Prod.mk.inj hparse
  obtain ⟨hsink, hresult⟩ := compileFile_move hfile options sink held
  unfold compileSource loadSource compileOutline
  dsimp only
  generalize readOutline (Token.outline (tokensOf source)) = read at hfile herrors hsink hresult ⊢
  have hempty : (parse source).errors.isEmpty = read.2.isEmpty := by
    rw [herrors]
    exact List.isEmpty_map
  rw [hempty]
  by_cases hnone : read.2.isEmpty = true
  · rw [if_pos hnone, if_pos hnone]
    refine ⟨hsink, ?_⟩
    show ((compileFile (parse source).file options sink held).result.mapError _).mapError _ =
      ((compileFile read.1 options sink held).result.mapError _).mapError _
    rw [hresult]
    cases (compileFile read.1 options sink held).result with
    | ok names => rfl
    | error err => exact congrArg (fun err => Except.error (Failure.compile err)) (unplaced_move place err)
  · rw [if_neg hnone, if_neg hnone]
    refine ⟨rfl, ?_⟩
    show Except.error (Failure.load (.parse path "" (unplaced (parse source).errors))) =
      .error (.load (.parse path "" (unplaced read.2)))
    rw [herrors, unplaced_move]

/-- Formatting does not matter: two source texts without faulty literals whose tokens have one outline are read as the same
file with the same errors, up to places, and compiling them hands the sink the same contracts and gives the same result, up
to places and the text itself. -/
theorem compile_depends_on_outline {source source' : String} (h : lexErrors (Token.scan source) = [])
    (h' : lexErrors (Token.scan source') = [])
    (hsame : Token.outline (tokensOf source) = Token.outline (tokensOf source')) :
    unplaced (parse source).file = unplaced (parse source').file ∧
      unplaced (parse source).errors = unplaced (parse source').errors ∧
      ∀ (path : String) (options : Options) {σ : Type} (sink : Sink σ) (held : σ),
        let run := compileSource path source options sink held
        let run' := compileSource path source' options sink held
        let recorded := compileSource path source options sink.recording (held, [])
        let recorded' := compileSource path source' options sink.recording (held, [])
        run.result.mapError Failure.bare = run'.result.mapError Failure.bare ∧ run.sink = run'.sink ∧
          recorded.sink.2 = recorded'.sink.2 := by
  have hread : ∀ {s : String}, lexErrors (Token.scan s) = [] →
      unplaced ((parse s).file, (parse s).errors) = unplaced (readOutline (Token.outline (tokensOf s))) := by
    intro s hs
    obtain ⟨place, hparse⟩ := exists_parse_eq_move hs
    rw [hparse, unplaced_move]
  have hpair := (hread h).trans (hsame ▸ (hread h').symm)
  refine ⟨congrArg Prod.fst hpair, congrArg Prod.snd hpair, fun path options σ sink held => ?_⟩
  have hrun : ∀ {τ : Type} (sink : Sink τ) (held : τ),
      (compileSource path source options sink held).sink = (compileSource path source' options sink held).sink ∧
        (compileSource path source options sink held).result.mapError Failure.bare =
          (compileSource path source' options sink held).result.mapError Failure.bare := by
    intro τ sink held
    obtain ⟨hsink, hresult⟩ := compileSource_eq_compileOutline h path options sink held
    obtain ⟨hsink', hresult'⟩ := compileSource_eq_compileOutline h' path options sink held
    rw [hsink, hresult, hsink', hresult', hsame]
    exact ⟨rfl, rfl⟩
  exact ⟨(hrun sink held).2, (hrun sink held).1, congrArg Prod.snd (hrun sink.recording (held, [])).1⟩

/-- A class with a shift and an access to the receiver, with no more blanks than it needs. -/
def tightSource : String := "class A\x7bx:number=1>>2;f(y:number)\x7bETH.log(x-y)\nreturn x\x7d\x7d"

/-- The same class with blanks and comments between its tokens. -/
def looseSource : String :=
  "class A \x7b /* state */ x : number = 1 >> 2 ; f ( y : number ) \x7b ETH . log ( x - y ) // note\n  return x \x7d \x7d"

/-- Blanks and comments move the tokens of a class and leave its contract as it is. -/
theorem loose_contract_eq_tight :
    tokensOf tightSource ≠ tokensOf looseSource ∧
      Token.outline (tokensOf tightSource) = Token.outline (tokensOf looseSource) ∧
      (compileSource "a.ts" tightSource {} Sink.list []).sink.map Contract.lines =
        [["contract A \x7b", "   int256 x = 1 /* <token op=>> /> */ 2;", "   function f(int256 y) public \x7b",
          "      emit (x - y);", "      return x;", "   \x7d", "   ", "\x7d"]] ∧
      (compileSource "a.ts" tightSource {} Sink.list []).sink =
        (compileSource "a.ts" looseSource {} Sink.list []).sink := by
  have hread : lexErrors (Token.scan tightSource) = [] ∧ lexErrors (Token.scan looseSource) = [] ∧
      tokensOf tightSource ≠ tokensOf looseSource ∧
      Token.outline (tokensOf tightSource) = Token.outline (tokensOf looseSource) ∧
      (compileSource "a.ts" tightSource {} Sink.list []).sink.map Contract.lines =
        [["contract A \x7b", "   int256 x = 1 /* <token op=>> /> */ 2;", "   function f(int256 y) public \x7b",
          "      emit (x - y);", "      return x;", "   \x7d", "   ", "\x7d"]] := by
    decide +kernel
  obtain ⟨htight, hloose, hmoved, hsame, hlines⟩ := hread
  have halike := compile_depends_on_outline htight hloose hsame
  exact ⟨hmoved, hsame, hlines, (halike.2.2 "a.ts" {} Sink.list []).2.1⟩

end ContractCompiler
