import ContractCompiler.Proofs.Token.Quoting
import ContractCompiler.Token.Scan

/-!
# The places of tokens in the text

Every token is cut out of the text it was scanned from, and so is what each of its faults is about. The places in a span are
counted in bytes, but no span starts or ends inside a character.
-/

namespace ContractCompiler

open Text

/-- The span is the place of a piece of the text. -/
def Span.Cuts (cs : List Char) (span : Span) : Prop :=
  ∃ before text after, cs = before ++ (text ++ after) ∧ span = ⟨utf8Length before, utf8Length (before ++ text)⟩

/-- Both ends of the span are boundaries of characters, in order and inside the text. -/
def Span.Valid (source : String) (span : Span) : Prop :=
  span.start ≤ span.stop ∧ span.stop ≤ source.utf8ByteSize ∧ (⟨span.start⟩ : String.Pos.Raw).IsValid source ∧
    (⟨span.stop⟩ : String.Pos.Raw).IsValid source

/-- The characters before a place end at a boundary. -/
theorem isValid_utf8Length {source : String} {before after : List Char} (h : source.toList = before ++ after) :
    (⟨utf8Length before⟩ : String.Pos.Raw).IsValid source := by
  refine String.Pos.Raw.isValid_iff_exists_append.mpr ⟨String.ofList before, String.ofList after, ?_, ?_⟩
  · rw [← String.ofList_append, ← h, String.ofList_toList]
  · rw [← String.toList_ofList (l := before), Token.utf8Length_toList, String.toList_ofList]
    rfl

/-- The place of a piece of a text is valid. -/
theorem Span.Cuts.valid {source : String} {span : Span} (h : span.Cuts source.toList) : span.Valid source := by
  obtain ⟨before, text, after, hsource, rfl⟩ := h
  have hstop : source.toList = (before ++ text) ++ after := by rw [hsource, List.append_assoc]
  refine ⟨by simp, ?_, isValid_utf8Length hsource, isValid_utf8Length hstop⟩
  rw [← Token.utf8Length_toList, hstop, utf8Length_append _ after]
  exact Nat.le_add_right _ _

/-- What a text starts with, at the place where the text starts. -/
theorem Span.cuts_text (before : List Char) {cs text after : List Char} (h : text ++ after = cs) :
    Span.Cuts (before ++ cs) ⟨utf8Length before, utf8Length before + utf8Length text⟩ :=
  ⟨before, text, after, by rw [h], by rw [utf8Length_append]⟩

namespace Token

/-- A fault of an escape is about the backslash and what it takes. -/
theorem cuts_quoted (quote : Char) (offset : Nat) (cs before : List Char) (hoffset : offset = utf8Length before) :
    ∀ e ∈ (quoted quote offset cs).errors, e.span.Cuts (before ++ cs) := by
  fun_induction quoted quote offset cs generalizing before with
  | case1 | case2 | case3 => simp
  | case4 offset cs e stop r value errors hline hquote ih =>
    have hcs : ('\\' :: e.taken) ++ e.rest = '\\' :: cs := by rw [List.cons_append, Escape.taken_append_rest]
    have hlength : stop = utf8Length before + utf8Length ('\\' :: e.taken) := by
      simp only [stop, hoffset, utf8Length_cons, Nat.add_assoc]
      rfl
    have hstop : stop = utf8Length (before ++ '\\' :: e.taken) := by rw [hlength, utf8Length_append]
    have hrest : ∀ err ∈ r.errors, err.span.Cuts (before ++ '\\' :: cs) := by
      rw [← hcs, ← List.append_assoc]
      exact ih _ hstop
    dsimp only [errors]
    split
    · rw [hlength, hoffset]
      exact List.forall_mem_cons.mpr ⟨Span.cuts_text before hcs, hrest⟩
    · exact hrest
    · exact hrest
  | case5 offset c cs hline hquote hslash r ih => simpa using ih (before ++ [c]) (by simp [hoffset])

/-- The faults in a string are at pieces of the text. -/
theorem cuts_string (before : List Char) (c : Char) (cs : List Char) :
    ∀ e ∈ (Lexeme.string (utf8Length before) c cs).errors, e.span.Cuts (before ++ c :: cs) := by
  have htext := quoted_append c (utf8Length before + c.utf8Size) cs
  dsimp only [Lexeme.string]
  refine List.forall_mem_append.mpr ⟨fun e he => ?_, ?_⟩
  · simpa using cuts_quoted c _ cs (before ++ [c]) (by simp) e he
  · split
    · simp
    · exact List.forall_mem_singleton.mpr (Span.cuts_text before (congrArg (c :: ·) htext))

theorem cuts_template (before cs : List Char) :
    ∀ e ∈ (Lexeme.template (utf8Length before) '\x60' cs).errors, e.span.Cuts (before ++ '\x60' :: cs) := by
  have htext := templateBody_append cs
  dsimp only [Lexeme.template]
  split
  · simp
  · rename_i hopen
    rw [if_neg hopen] at htext
    exact List.forall_mem_singleton.mpr (Span.cuts_text before (congrArg ('\x60' :: ·) htext))

theorem cuts_lexeme (before : List Char) (c : Char) (cs : List Char) :
    ∀ e ∈ (lexeme (utf8Length before) c cs).errors, e.span.Cuts (before ++ c :: cs) := by
  unfold lexeme
  split
  · simp [Lexeme.word]
  split
  · simp [Lexeme.number]
  split
  · simp [Lexeme.number]
  split
  · unfold Lexeme.privateName
    split <;> simp
  split
  · exact cuts_string before c cs
  split
  · rename_i hquote
    subst hquote
    exact cuts_template before cs
  · unfold Lexeme.mark
    split <;> simp

/-- Every token and every fault has its place in the text. -/
theorem cuts_scanFrom (offset : Nat) (cs before : List Char) (hoffset : offset = utf8Length before) :
    ∀ t ∈ scanFrom offset cs, t.token.span.Cuts (before ++ cs) ∧ ∀ e ∈ t.errors, e.span.Cuts (before ++ cs) := by
  fun_induction scanFrom offset cs generalizing before with
  | case1 offset cs gap start h =>
    have hcs := trivia_append .blank cs
    rw [h, List.append_nil] at hcs
    refine List.forall_mem_singleton.mpr ⟨⟨before ++ cs, [], [], by simp, ?_⟩, by simp⟩
    simp [start, gap, hcs, hoffset]
  | case2 offset cs gap start c rest h l stop ih =>
    have hcs : before ++ cs = (before ++ gap) ++ c :: rest := by
      rw [List.append_assoc, ← h, trivia_append]
    have hrest : l.text ++ l.rest = c :: rest := lexeme_append start c rest
    have hstart : start = utf8Length (before ++ gap) := by rw [utf8Length_append, ← hoffset]
    have hstop : stop = utf8Length (before ++ gap ++ l.text) := by rw [utf8Length_append, ← hstart]
    rw [hcs]
    refine List.forall_mem_cons.mpr ⟨⟨?_, ?_⟩, ?_⟩
    · have hspan := Span.cuts_text (before ++ gap) hrest
      rwa [← hstart] at hspan
    · have herrors := cuts_lexeme (before ++ gap) c rest
      rwa [← hstart] at herrors
    · rw [← hrest, ← List.append_assoc]
      exact ih _ hstop

end Token

end ContractCompiler
