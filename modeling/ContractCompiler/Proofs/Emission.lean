import ContractCompiler.Compile
import ContractCompiler.Proofs.ClassTable

/-!
# Compiling stops at the first failure

Which contracts a run hands to its sink is seen through `Sink.recording`, which lets the sink behave as it does
and keeps what it was handed. `Outcome` lists the three ways in which the classes of a file can come out: all are
written and taken, one cannot be written, or one is refused. In each of them the contracts handed to the sink are
those of the classes before, in order, and a refused one is the last.
-/

namespace ContractCompiler

variable {σ : Type}

/-- The sink that hands contracts on to `sink` and keeps every contract it was handed, refused ones too. -/
def Sink.recording (sink : Sink σ) : Sink (σ × List Contract) where
  emit held c :=
    let emission := sink.emit held.1 c
    ⟨(emission.state, held.2 ++ [c]), emission.failure, emission.journal⟩

/-- Handed the contracts one after the other, the sink refuses none, and holds `held'` at the end. -/
inductive Sink.Takes (sink : Sink σ) : σ → List Contract → σ → Prop where
  | nil (held : σ) : Takes sink held [] held
  | cons {held held' : σ} {c : Contract} {cs : List Contract} :
      (sink.emit held c).failure = none → Takes sink (sink.emit held c).state cs held' →
        Takes sink held (c :: cs) held'

/-- The contracts are those of the declarations, all of which can be written. -/
def Written (indent : String) (b : Bindings) (decls : List ClassDecl) (contracts : List Contract) : Prop :=
  decls.map (fun d => d.render indent b) = contracts.map Except.ok

/-- How compiling the classes of `decls` one after the other can end: with this result, with this in the sink, and
with these contracts handed to it. -/
inductive Outcome (sink : Sink σ) (indent : String) (b : Bindings) (held : σ) :
    List ClassDecl → Except CompileError (List String) → σ → List Contract → Prop where
  /-- Every class is written and its contract taken. -/
  | finished {decls : List ClassDecl} {contracts : List Contract} {held' : σ} :
      Written indent b decls contracts → sink.Takes held contracts held' →
        Outcome sink indent b held decls (.ok (decls.map fun d => d.name.name)) held' contracts
  /-- The class `d` cannot be written. -/
  | unwritten {decls done rest : List ClassDecl} {contracts : List Contract} {held' : σ} {d : ClassDecl}
      {e : RenderError} :
      decls = done ++ d :: rest → Written indent b done contracts → sink.Takes held contracts held' →
        d.render indent b = .error e →
          Outcome sink indent b held decls (.error (.render d.name.name e)) held' contracts
  /-- The sink refuses the contract of the class `d`. -/
  | refused {decls done rest : List ClassDecl} {contracts : List Contract} {held' : σ} {d : ClassDecl} {c : Contract}
      {reason : String} :
      decls = done ++ d :: rest → Written indent b done contracts → sink.Takes held contracts held' →
        d.render indent b = .ok c → (sink.emit held' c).failure = some reason →
          Outcome sink indent b held decls (.error (.emit d.name.name reason)) (sink.emit held' c).state
            (contracts ++ [c])

/-- A contract has the name of its class. -/
theorem ClassDecl.name_of_render {d : ClassDecl} {indent : String} {b : Bindings} {c : Contract}
    (h : d.render indent b = .ok c) : c.name = d.name.name := by
  unfold ClassDecl.render at h
  split at h
  · rw [← Except.ok.inj h]
  · nomatch h

/-- No declarations, no contracts. -/
theorem Written.nil (indent : String) (b : Bindings) : Written indent b [] [] := rfl

/-- One more declaration that can be written, one more contract. -/
theorem Written.cons {indent : String} {b : Bindings} {d : ClassDecl} {decls : List ClassDecl} {c : Contract}
    {cs : List Contract} (hd : d.render indent b = .ok c) (h : Written indent b decls cs) :
    Written indent b (d :: decls) (c :: cs) := by
  unfold Written at *
  rw [List.map_cons, List.map_cons, hd, h]

/-- Contracts have the names of the declarations they are written from. -/
theorem Written.names {indent : String} {b : Bindings} {decls : List ClassDecl} {contracts : List Contract}
    (h : Written indent b decls contracts) : contracts.map Contract.name = decls.map fun d => d.name.name := by
  induction decls generalizing contracts with
  | nil =>
    cases List.map_eq_nil_iff.mp h.symm
    rfl
  | cons d decls ih =>
    cases contracts with
    | nil => cases h
    | cons c contracts =>
      obtain ⟨hc, hrest⟩ := List.cons.inj h
      rw [List.map_cons, List.map_cons, ih hrest, ClassDecl.name_of_render hc]

/-- One more class in front, written and taken, leaves the outcome of the classes after it as it is. -/
theorem Outcome.cons {sink : Sink σ} {indent : String} {b : Bindings} {held held' : σ} {d : ClassDecl}
    {decls : List ClassDecl} {c : Contract} {calls : List Contract} {result : Except CompileError (List String)}
    (hd : d.render indent b = .ok c) (hc : (sink.emit held c).failure = none)
    (h : Outcome sink indent b (sink.emit held c).state decls result held' calls) :
    Outcome sink indent b held (d :: decls) (result.map (c.name :: ·)) held' (c :: calls) := by
  rw [ClassDecl.name_of_render hd]
  cases h with
  | finished hw ht => exact Outcome.finished (hw.cons hd) (ht.cons hc)
  | unwritten hsplit hw ht he =>
    exact Outcome.unwritten (congrArg (d :: ·) hsplit) (hw.cons hd) (ht.cons hc) he
  | refused hsplit hw ht he hr =>
    exact Outcome.refused (congrArg (d :: ·) hsplit) (hw.cons hd) (ht.cons hc) he hr

/-- The contracts that were handed over have the names of the first declarations. -/
theorem Outcome.names {sink : Sink σ} {indent : String} {b : Bindings} {held held' : σ} {decls : List ClassDecl}
    {result : Except CompileError (List String)} {contracts : List Contract}
    (h : Outcome sink indent b held decls result held' contracts) :
    contracts.map Contract.name <+: decls.map fun d => d.name.name := by
  cases h with
  | finished hw ht => exact hw.names ▸ List.prefix_rfl
  | unwritten hsplit hw ht he =>
    rw [hw.names, hsplit, List.map_append]
    exact List.prefix_append _ _
  | refused hsplit hw ht hd hr =>
    rw [List.map_append, hw.names, List.map_singleton, ClassDecl.name_of_render hd, hsplit, List.map_append, List.map_cons]
    exact (List.prefix_append_right_inj _).mpr (List.prefix_append [_] _)

/-- All declarations have been written if compiling them ends well. -/
theorem Outcome.names_of_ok {sink : Sink σ} {indent : String} {b : Bindings} {held held' : σ} {decls : List ClassDecl}
    {names : List String} {contracts : List Contract} (h : Outcome sink indent b held decls (.ok names) held' contracts) :
    contracts.map Contract.name = names ∧ names = decls.map fun d => d.name.name := by
  cases h with
  | finished hw ht => exact ⟨hw.names, rfl⟩

/-- Keeping what it was handed changes neither what the sink holds nor the result, and what was handed to it is what
the outcome says. -/
theorem emitClasses_recording (sink : Sink σ) (indent : String) (b : Bindings) (decls : List ClassDecl) :
    ∀ (held : σ) (log : List Contract), ∃ calls,
      Outcome sink indent b held decls (emitClasses sink indent b decls held).result
        (emitClasses sink indent b decls held).sink calls ∧
      (emitClasses sink.recording indent b decls (held, log)).result =
        (emitClasses sink indent b decls held).result ∧
      (emitClasses sink.recording indent b decls (held, log)).sink =
        ((emitClasses sink indent b decls held).sink, log ++ calls) := by
  induction decls with
  | nil =>
    intro held log
    exact ⟨[], Outcome.finished (Written.nil indent b) (Sink.Takes.nil held), rfl, by simp [emitClasses]⟩
  | cons d decls ih =>
    intro held log
    cases hd : d.render indent b with
    | error e =>
      refine ⟨[], ?_, by simp [emitClasses, hd], by simp [emitClasses, hd]⟩
      simp only [emitClasses, hd]
      exact Outcome.unwritten (List.nil_append _).symm (Written.nil indent b) (Sink.Takes.nil held) hd
    | ok c =>
      cases hc : (sink.emit held c).failure with
      | some reason =>
        refine ⟨[c], ?_, by simp [emitClasses, hd, Sink.recording, hc], by simp [emitClasses, hd, Sink.recording, hc]⟩
        simp only [emitClasses, hd, hc, ClassDecl.name_of_render hd]
        exact Outcome.refused (List.nil_append _).symm (Written.nil indent b) (Sink.Takes.nil held) hd hc
      | none =>
        obtain ⟨calls, hout, hres, hsink⟩ := ih (sink.emit held c).state (log ++ [c])
        refine ⟨c :: calls, ?_, ?_, ?_⟩
        · simp only [emitClasses, hd, hc]
          exact Outcome.cons hd hc hout
        · simp only [emitClasses, hd, Sink.recording, hc]
          exact congrArg (Except.map (c.name :: ·)) hres
        · simp only [emitClasses, hd, Sink.recording, hc]
          exact hsink.trans (by simp)

/-- Compiling is fail-fast and hands contracts over in the order in which the names of the classes are first declared,
each with the body of its last declaration. A source text with errors hands over none. -/
theorem compile_fails_fast (file : SourceFile) (options : Options) (sink : Sink σ) (held : σ) :
    let decls := (declaredClassNames file.classes).filterMap (lastNamed? file.classes)
    let run := compileFile file options sink held
    let recorded := compileFile file options sink.recording (held, [])
    decls.map (fun d => d.name.name) = declaredClassNames file.classes ∧
      Outcome sink options.indent (file.bindings options.receiver) held decls run.result run.sink recorded.sink.2 ∧
      recorded.result = run.result ∧ recorded.sink.1 = run.sink ∧
      ∀ path source, (compileSource path source options sink.recording (held, [])).sink.2 =
        if (parse source).errors = [] then
          (compileFile (parse source).file options sink.recording (held, [])).sink.2
        else [] := by
  intro decls run recorded
  obtain ⟨calls, hout, hres, hsink⟩ := emitClasses_recording sink options.indent (file.bindings options.receiver)
    (ClassTable.ofFile file).classes held []
  have hcalls : recorded.sink = (run.sink, calls) := hsink
  refine ⟨names_of_last file.classes fun _ h => h, ?_, hres, by rw [hcalls], ?_⟩
  · have hdecls : decls = (ClassTable.ofFile file).classes := (ClassTable.classes_ofFile file).symm
    rw [hcalls, hdecls]
    exact hout
  · intro path source
    cases herr : (parse source).errors with
    | nil => simp [compileSource, compileLoaded, loadSource, herr]
    | cons e es => simp [compileSource, compileLoaded, loadSource, herr]

end ContractCompiler
