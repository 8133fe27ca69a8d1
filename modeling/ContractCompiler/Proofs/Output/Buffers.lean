import ContractCompiler.Proofs.Emission
import ContractCompiler.Proofs.Text.Utf8

/-!
# Lines in buffers

A buffer takes the bytes it has room for, and it makes no difference into which pieces they are cut. So what `Sink.lines` does with
a contract is one write of the bytes of its line, the line break with them, and a buffer without a capacity takes all lines.
-/

namespace ContractCompiler

variable {σ : Type}

/-! ## Writing bytes -/

namespace Buffer

/-- A buffer without a capacity takes all bytes. -/
theorem write_of_unlimited {buffer : Buffer} (h : buffer.capacity = none) (bytes : List UInt8) :
    buffer.write bytes = ({ buffer with bytes := buffer.bytes ++ bytes }, true) := by
  rw [write, h]

/-- One more piece after bytes that were all taken. -/
theorem write_append_of_fits {buffer : Buffer} {bytes : List UInt8} (h : (buffer.write bytes).2 = true) (others : List UInt8) :
    (buffer.write bytes).1.write others = buffer.write (bytes ++ others) := by
  obtain ⟨capacity, held⟩ := buffer
  cases capacity with
  | none => simp [write]
  | some capacity =>
    have hfits : bytes.length ≤ capacity - held.length := of_decide_eq_true h
    have hroom : capacity - (held ++ bytes).length = capacity - held.length - bytes.length := by
      rw [List.length_append]
      omega
    have hall : others.length ≤ capacity - held.length - bytes.length ↔
        (bytes ++ others).length ≤ capacity - held.length := by
      rw [List.length_append]
      omega
    simp only [write, List.take_of_length_le hfits, hroom, hall, List.take_append, List.append_assoc]

/-- Nothing is taken after bytes that did not fit. -/
theorem write_append_of_full {buffer : Buffer} {bytes : List UInt8} (h : (buffer.write bytes).2 = false) (others : List UInt8) :
    buffer.write (bytes ++ others) = buffer.write bytes := by
  obtain ⟨capacity, held⟩ := buffer
  cases capacity with
  | none => cases h
  | some capacity =>
    have hfull : ¬ bytes.length ≤ capacity - held.length := of_decide_eq_false h
    have hall : ¬ (bytes ++ others).length ≤ capacity - held.length := by
      rw [List.length_append]
      omega
    have htake : (bytes ++ others).take (capacity - held.length) = bytes.take (capacity - held.length) :=
      List.take_append_of_le_length (by omega)
    simp only [write, htake, decide_eq_false hfull, decide_eq_false hall]

/-- Writing pieces up to the first that does not fit is writing them as one. -/
theorem writeAll_eq_write (buffer : Buffer) (pieces : List (List UInt8)) :
    buffer.writeAll pieces = buffer.write pieces.flatten := by
  induction pieces generalizing buffer with
  | nil =>
    obtain ⟨capacity, held⟩ := buffer
    cases capacity <;> simp [writeAll, write]
  | cons piece pieces ih =>
    rw [writeAll, List.flatten_cons]
    cases hfits : (buffer.write piece).2 with
    | true => simp only [hfits, if_true, ih, write_append_of_fits hfits]
    | false =>
      simp only [hfits, Bool.false_eq_true, if_false, write_append_of_full hfits]
      exact Prod.ext rfl hfits.symm

end Buffer

/-! ## The line of a contract -/

/-- The bytes of the line that `render` makes of a contract. -/
def Contract.lineBytes (render : Contract → String) (c : Contract) : List UInt8 :=
  Text.utf8Bytes (render c) ++ Text.utf8Bytes "\n"

namespace Sink

/-- A contract is handed to the buffer as a line of bytes, and refused if they were not all written. -/
theorem emit_lines (render : Contract → String) (buffer : Buffer) (c : Contract) :
    (lines render).emit buffer c =
      ⟨(buffer.write (c.lineBytes render)).1,
        if (buffer.write (c.lineBytes render)).2 then none else some "failed to write whole buffer", []⟩ := by
  have hpieces : buffer.writeAll [Text.utf8Bytes (render c), Text.utf8Bytes "\n"] = buffer.write (c.lineBytes render) := by
    rw [Buffer.writeAll_eq_write, List.flatten_cons, List.flatten_cons, List.flatten_nil, List.append_nil]
    rfl
  rw [← hpieces]
  rfl

/-! ## Sinks that take everything -/

/-- While it holds something with the property `I`, the sink takes every contract, notes nothing and goes on so. -/
structure Open (sink : Sink σ) (I : σ → Prop) : Prop where
  takes : ∀ held c, I held → (sink.emit held c).failure = none
  quiet : ∀ held c, I held → (sink.emit held c).journal = []
  keeps : ∀ held c, I held → I (sink.emit held c).state

/-- Handed contracts one after the other, it takes them all. -/
theorem Open.exists_takes {sink : Sink σ} {I : σ → Prop} (h : sink.Open I) (held : σ) (contracts : List Contract)
    (hheld : I held) : ∃ held', sink.Takes held contracts held' := by
  induction contracts generalizing held with
  | nil => exact ⟨held, .nil held⟩
  | cons c contracts ih =>
    obtain ⟨held', htakes⟩ := ih (sink.emit held c).state (h.keeps held c hheld)
    exact ⟨held', .cons (h.takes held c hheld) htakes⟩

/-- What is discarded is never refused. -/
theorem open_discard : discard.Open fun _ => True :=
  ⟨fun _ _ _ => rfl, fun _ _ _ => rfl, fun _ _ _ => trivial⟩

/-- A buffer without a limit takes the whole line. -/
theorem emit_lines_of_unlimited (render : Contract → String) {buffer : Buffer} (h : buffer.capacity = none) (c : Contract) :
    (lines render).emit buffer c = ⟨{ buffer with bytes := buffer.bytes ++ c.lineBytes render }, none, []⟩ := by
  rw [emit_lines, Buffer.write_of_unlimited h]
  rfl

theorem open_lines (render : Contract → String) : (lines render).Open fun buffer => buffer.capacity = none := by
  constructor
  · intro buffer c h
    rw [emit_lines_of_unlimited render h]
  · intro buffer c _
    rfl
  · intro buffer c h
    rw [emit_lines_of_unlimited render h]
    exact h

/-- The lines of the contracts stand in the buffer one after the other. -/
theorem bytes_of_takes {render : Contract → String} {buffer buffer' : Buffer} {contracts : List Contract}
    (h : (lines render).Takes buffer contracts buffer') (hbuffer : buffer.capacity = none) :
    buffer'.bytes = buffer.bytes ++ contracts.flatMap (Contract.lineBytes render) := by
  induction h with
  | nil buffer => simp
  | @cons buffer buffer' c contracts _ _ ih =>
    rw [ih ((open_lines render).keeps buffer c hbuffer), emit_lines_of_unlimited render hbuffer, List.flatMap_cons,
      List.append_assoc]

end Sink

end ContractCompiler
