import ContractCompiler.Proofs.Output.Buffers

/-!
# What a full buffer holds

The same file is compiled into a buffer without a capacity and into one that takes only so many bytes. `Sink.metered` tells how many
bytes the first holds after each contract. Whatever the capacity, the second ends up with the beginning of what the first holds, and
the first contract that goes beyond the capacity is the one that is refused; the runs do not differ if there is none.
-/

namespace ContractCompiler

/-! ## Counting bytes -/

/-- The sink that hands contracts on to `sink` and keeps, for every contract it was handed, the name of the contract and the number of
bytes that the buffer held afterwards. -/
def Sink.metered (sink : Sink Buffer) : Sink (Buffer × List (String × Nat)) where
  emit held c :=
    let emission := sink.emit held.1 c
    ⟨(emission.state, held.2 ++ [(c.name, emission.state.bytes.length)]), emission.failure, emission.journal⟩

/-- The names and numbers of bytes that `Sink.metered` keeps when classes are written from here on. -/
def marks (sink : Sink Buffer) (indent : String) (b : Bindings) (decls : List ClassDecl) (held : Buffer) : List (String × Nat) :=
  (emitClasses sink.metered indent b decls (held, [])).sink.2

/-- Metering changes neither the result nor what the buffer holds, and adds to what it kept before. -/
theorem emitClasses_metered (sink : Sink Buffer) (indent : String) (b : Bindings) (decls : List ClassDecl) :
    ∀ (held : Buffer) (kept : List (String × Nat)),
      (emitClasses sink.metered indent b decls (held, kept)).result = (emitClasses sink indent b decls held).result ∧
        (emitClasses sink.metered indent b decls (held, kept)).sink =
          ((emitClasses sink indent b decls held).sink, kept ++ marks sink indent b decls held) := by
  induction decls with
  | nil =>
    intro held kept
    exact ⟨rfl, by simp [emitClasses, marks]⟩
  | cons d decls ih =>
    intro held kept
    cases hd : d.render indent b with
    | error e => exact ⟨by simp [emitClasses, hd], by simp [emitClasses, marks, hd]⟩
    | ok c =>
      cases hc : (sink.emit held c).failure with
      | some reason =>
        exact ⟨by simp [emitClasses, hd, Sink.metered, hc], by simp [emitClasses, marks, hd, Sink.metered, hc]⟩
      | none =>
        let mark := (c.name, (sink.emit held c).state.bytes.length)
        obtain ⟨hresult, hsink⟩ := ih (sink.emit held c).state (kept ++ [mark])
        obtain ⟨-, hmark⟩ := ih (sink.emit held c).state [mark]
        constructor
        · simp only [emitClasses, hd, Sink.metered, hc]
          exact congrArg (Except.map (c.name :: ·)) hresult
        · simp only [emitClasses, marks, hd, Sink.metered, hc]
          refine hsink.trans (Prod.ext rfl ?_)
          have hrest := congrArg Prod.snd hmark
          exact (List.append_assoc ..).trans (congrArg (kept ++ ·) hrest.symm)

/-! ## Handing over one contract -/

/-- A buffer with a capacity that it has not gone beyond holds as much as fits of all that it is given. -/
theorem Buffer.write_of_capacity {capacity : Nat} {held : List UInt8} (h : held.length ≤ capacity) (bytes : List UInt8) :
    (Buffer.mk (some capacity) held).write bytes =
      (⟨some capacity, (held ++ bytes).take capacity⟩, decide ((held ++ bytes).length ≤ capacity)) := by
  have hfits : bytes.length ≤ capacity - held.length ↔ (held ++ bytes).length ≤ capacity := by
    rw [List.length_append]
    omega
  simp only [write, List.take_append, List.take_of_length_le h, hfits]

/-- A buffer takes bytes up to its capacity, and refuses the contract if there are more. -/
theorem Sink.emit_lines_of_capacity (render : Contract → String) {capacity : Nat} {held : List UInt8}
    (h : held.length ≤ capacity) (c : Contract) :
    (lines render).emit ⟨some capacity, held⟩ c =
      ⟨⟨some capacity, (held ++ c.lineBytes render).take capacity⟩,
        if (held ++ c.lineBytes render).length ≤ capacity then none else some "failed to write whole buffer", []⟩ := by
  rw [emit_lines, Buffer.write_of_capacity h]
  simp only [decide_eq_true_eq]

/-- A buffer without a capacity takes all bytes. -/
theorem Sink.emit_lines_of_none (render : Contract → String) (held : List UInt8) (c : Contract) :
    (lines render).emit ⟨none, held⟩ c = ⟨⟨none, held ++ c.lineBytes render⟩, none, []⟩ :=
  emit_lines_of_unlimited render rfl c

/-! ## Classes one after the other -/

section Classes

variable {render : Contract → String} {indent : String} {b : Bindings} {d : ClassDecl} {decls : List ClassDecl} {c : Contract}

/-- Where the first class cannot be written no bytes are counted. -/
theorem marks_of_error {e : RenderError} (hd : d.render indent b = .error e) (held : Buffer) :
    marks (.lines render) indent b (d :: decls) held = [] := by
  simp [marks, emitClasses, hd]

/-- A class that can be written leaves its mark, and then come those of the classes after it. -/
theorem marks_of_unlimited (hd : d.render indent b = .ok c) (bytes : List UInt8) :
    marks (.lines render) indent b (d :: decls) ⟨none, bytes⟩ =
      (c.name, (bytes ++ c.lineBytes render).length) ::
        marks (.lines render) indent b decls ⟨none, bytes ++ c.lineBytes render⟩ := by
  obtain ⟨-, hsink⟩ := emitClasses_metered (.lines render) indent b decls ⟨none, bytes ++ c.lineBytes render⟩
    [(c.name, (bytes ++ c.lineBytes render).length)]
  have hemit := Sink.emit_lines_of_none render bytes c
  simp only [marks, emitClasses, hd, Sink.metered, hemit]
  exact congrArg Prod.snd hsink

/-- A buffer without a capacity keeps what it holds and goes on from there. -/
theorem isPrefix_of_unlimited (render : Contract → String) (indent : String) (b : Bindings) (decls : List ClassDecl) :
    ∀ bytes, bytes <+: (emitClasses (.lines render) indent b decls ⟨none, bytes⟩).sink.bytes := by
  induction decls with
  | nil =>
    intro bytes
    exact List.prefix_rfl
  | cons d decls ih =>
    intro bytes
    cases hd : d.render indent b with
    | error e => simp [emitClasses, hd]
    | ok c =>
      have hemit := Sink.emit_lines_of_none render bytes c
      simp only [emitClasses, hd, hemit]
      exact (List.prefix_append bytes _).trans (ih _)

/-- The failure of the first contract after which there would be more bytes than the capacity, or else this result. -/
def refusedAt (capacity : Nat) (marks : List (String × Nat)) (result : Except CompileError (List String)) :
    Except CompileError (List String) :=
  (marks.find? fun mark => capacity < mark.2).elim result fun mark =>
    .error (.emit mark.1 "failed to write whole buffer")

/-- What is made of a result is made of it unless a contract is refused before. -/
theorem map_refusedAt (capacity : Nat) (marks : List (String × Nat)) (result : Except CompileError (List String))
    (f : List String → List String) :
    (refusedAt capacity marks result).map f = refusedAt capacity marks (result.map f) := by
  unfold refusedAt
  cases marks.find? fun mark => capacity < mark.2 with
  | none => rfl
  | some mark => rfl

/-- A buffer with a capacity, compared with one without that held the same bytes before. -/
theorem emitClasses_of_capacity (render : Contract → String) (indent : String) (b : Bindings) (capacity : Nat)
    (decls : List ClassDecl) :
    ∀ bytes, bytes.length ≤ capacity →
      (emitClasses (.lines render) indent b decls ⟨some capacity, bytes⟩).sink.bytes =
          (emitClasses (.lines render) indent b decls ⟨none, bytes⟩).sink.bytes.take capacity ∧
        (emitClasses (.lines render) indent b decls ⟨some capacity, bytes⟩).result =
          refusedAt capacity (marks (.lines render) indent b decls ⟨none, bytes⟩)
            (emitClasses (.lines render) indent b decls ⟨none, bytes⟩).result := by
  induction decls with
  | nil =>
    intro bytes hbytes
    exact ⟨(List.take_of_length_le hbytes).symm, rfl⟩
  | cons d decls ih =>
    intro bytes hbytes
    cases hd : d.render indent b with
    | error e =>
      rw [marks_of_error hd]
      simp only [emitClasses, hd]
      exact ⟨(List.take_of_length_le hbytes).symm, rfl⟩
    | ok c =>
      have hfree := Sink.emit_lines_of_none render bytes c
      rw [marks_of_unlimited hd]
      have hbounded := Sink.emit_lines_of_capacity render hbytes c
      by_cases hfits : (bytes ++ c.lineBytes render).length ≤ capacity
      · -- Both buffers hold the same afterwards, and go on from there.
        rw [if_pos hfits, List.take_of_length_le hfits] at hbounded
        obtain ⟨hheld, hresult⟩ := ih (bytes ++ c.lineBytes render) hfits
        simp only [emitClasses, hd, hfree, hbounded]
        refine ⟨hheld, ?_⟩
        rw [hresult, map_refusedAt, refusedAt, refusedAt, List.find?_cons_of_neg (by simpa using hfits)]
      · -- The bounded buffer is full with the beginning of the line, which is all that the other one keeps under the capacity.
        rw [if_neg hfits] at hbounded
        obtain ⟨later, hlater⟩ := isPrefix_of_unlimited render indent b decls (bytes ++ c.lineBytes render)
        simp only [emitClasses, hd, hfree, hbounded]
        refine ⟨?_, ?_⟩
        · rw [← hlater, List.take_append_of_le_length (Nat.le_of_not_le hfits)]
        · rw [refusedAt, List.find?_cons_of_pos (by simpa using hfits)]
          rfl

end Classes

/-- A buffer of any capacity ends up with the beginning of what one without a capacity holds. If no contract goes beyond the capacity
the run ends as it does without one. Otherwise it fails at the first contract that does, whatever the classes after it would have
come to. Texts (`Sink.writer`) and lines of JSON (`Sink.jsonLines`) are written in this way, each with a `render` of its own. -/
theorem bounded_run_holds_beginning (file : SourceFile) (options : Options) (render : Contract → String) (capacity : Nat) :
    let free := compileFile file options (Sink.lines render) (Buffer.empty none)
    let metered := compileFile file options (Sink.lines render).metered (Buffer.empty none, [])
    let bounded := compileFile file options (Sink.lines render) (Buffer.empty (some capacity))
    (metered.result = free.result ∧ metered.sink.1 = free.sink) ∧
      bounded.sink.bytes = free.sink.bytes.take (min capacity free.sink.bytes.length) ∧
      ((∀ mark ∈ metered.sink.2, mark.2 ≤ capacity) → bounded.result = free.result) ∧
      ∀ mark, metered.sink.2.find? (fun mark => capacity < mark.2) = some mark →
        bounded.result = .error (.emit mark.1 "failed to write whole buffer") := by
  intro free metered bounded
  let b := file.bindings options.receiver
  let decls := (ClassTable.ofFile file).classes
  obtain ⟨hresult, hsink⟩ := emitClasses_metered (Sink.lines render) options.indent b decls (Buffer.empty none) []
  have hmetered : metered.sink = (free.sink, marks (Sink.lines render) options.indent b decls (Buffer.empty none)) := hsink
  obtain ⟨hheld, hrefused⟩ := emitClasses_of_capacity render options.indent b capacity decls [] (Nat.zero_le capacity)
  have hbounded : bounded.result = refusedAt capacity metered.sink.2 free.result := by
    rw [hmetered]
    exact hrefused
  refine ⟨⟨hresult, by rw [hmetered]⟩, ?_, ?_, ?_⟩
  · rw [← List.take_eq_take_min]
    exact hheld
  · intro hfits
    have hnone : metered.sink.2.find? (fun mark => capacity < mark.2) = none :=
      List.find?_eq_none.2 fun mark hmark => by simpa using hfits mark hmark
    rw [hbounded, refusedAt, hnone]
    rfl
  · intro mark hmark
    rw [hbounded, refusedAt, hmark]
    rfl

end ContractCompiler
