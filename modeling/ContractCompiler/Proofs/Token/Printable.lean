import ContractCompiler.Proofs.Token.Rescan

/-!
# Printable tokens

Words, private names and numbers are made of printable characters of ASCII, whatever text they are scanned from.
-/

namespace ContractCompiler

namespace Text

/-- Whether `c` is a printable character of ASCII, the space included. -/
def isPrintableAscii (c : Char) : Bool := 32 ≤ c.toNat && c.toNat ≤ 126

/-- The printable characters are those from the space to the tilde. -/
theorem isPrintableAscii_iff {c : Char} : isPrintableAscii c = true ↔ 32 ≤ c.toNat ∧ c.toNat ≤ 126 := by
  simp [isPrintableAscii]

/-- The characters of a word are printable. -/
theorem isPrintableAscii_of_isWordPart {c : Char} (h : Token.isWordPart c = true) : isPrintableAscii c = true := by
  simp only [Token.isWordPart, Bool.or_eq_true, beq_iff_eq, Token.isAlphanum_iff] at h
  rcases h with (h | rfl) | rfl
  · rw [isPrintableAscii_iff]
    omega
  · decide
  · decide

/-- Digits are printable. -/
theorem isPrintableAscii_digitChar {d : Nat} (h : d < 16) : isPrintableAscii (Nat.digitChar d) = true := by
  revert d
  decide

end Text

open Text

/-! ## Words -/

/-- A word is printable. -/
theorem Token.printable_of_isWord {cs : List Char} (h : isWord cs = true) : cs.all isPrintableAscii = true := by
  cases cs with
  | nil => rfl
  | cons c cs =>
    simp only [isWord, Bool.and_eq_true, List.all_eq_true] at h
    simp only [List.all_cons, Bool.and_eq_true, List.all_eq_true]
    refine ⟨isPrintableAscii_of_isWordPart (isWordPart_of_isWordStart h.1), fun d hd => ?_⟩
    exact isPrintableAscii_of_isWordPart (h.2 d hd)

/-- A name is printable, the private marker in front of it included. -/
theorem Token.printable_of_isName {name : String} (h : isName name = true) :
    name.toList.all isPrintableAscii = true := by
  have hbare := printable_of_isWord h
  unfold bareName at hbare
  split at hbare
  · rename_i c cs hname
    split at hbare
    · rename_i hc
      rw [String.toList_ofList] at hbare
      rw [hname, hc, List.all_cons, hbare]
      rfl
    · exact hbare
  · exact hbare

/-! ## Numbers -/

/-- What the split takes is printable. -/
def Text.Split.Printable (f : Split) : Prop := ∀ cs, (f cs).1.all isPrintableAscii = true

namespace Text.Split.Printable

variable {f g : Split} {p : Char → Bool}

/-- What is taken while a condition holds is printable if the condition admits printable characters only. -/
theorem takeWhile (hp : ∀ c, p c = true → isPrintableAscii c = true) : Printable (Split.takeWhile p) := by
  intro cs
  have htaken := List.all_eq_true.mp (List.all_takeWhile (p := p) (l := cs))
  exact List.all_eq_true.mpr fun c hc => hp c (htaken c hc)

theorem optional (hp : ∀ c, p c = true → isPrintableAscii c = true) : Printable (Split.optional p) := by
  intro cs
  cases cs with
  | nil => rfl
  | cons c cs =>
    rw [Split.optional]
    split
    · simpa using hp c ‹_›
    · rfl

theorem andThen (hf : Printable f) (hg : Printable g) : Printable (f.andThen g) := by
  intro cs
  rw [Split.andThen, List.all_append, hf, hg]
  rfl

end Text.Split.Printable

namespace Token

namespace Number

/-- The digits of a number are printable. -/
theorem printable_digits : digits.Printable :=
  .takeWhile fun _ hc => isPrintableAscii_of_isWordPart (isWordPart_of_digit hc)

theorem printable_fraction : fraction.Printable := by
  intro cs
  unfold fraction
  split
  · split
    · rw [List.all_cons, printable_digits]
      rfl
    · rfl
  · rfl

theorem printable_exponent : exponent.Printable := by
  intro cs
  unfold exponent
  split
  · rename_i e c cs
    split
    · rename_i h
      simp only [Bool.and_eq_true, Bool.or_eq_true, beq_iff_eq] at h
      have he : isPrintableAscii e = true := by rcases h.1 with rfl | rfl <;> decide
      have hc : isPrintableAscii c = true := by
        rcases h.2 with (hdigit | rfl) | rfl
        · exact isPrintableAscii_of_isWordPart (isWordPart_of_isDigit hdigit)
        · decide
        · decide
      have hdigits : (cs.takeWhile Char.isDigit).all isPrintableAscii = true :=
        Split.Printable.takeWhile (fun _ hd => isPrintableAscii_of_isWordPart (isWordPart_of_isDigit hd)) cs
      rw [List.all_cons, List.all_cons, he, hc, hdigits]
      rfl
    · rfl
  · rfl

theorem printable_tail (first : Char) : (tail first).Printable := by
  have hradix : radixTail.Printable := by
    refine .andThen (.optional fun c hc => ?_) (.takeWhile fun c hc => ?_)
    · exact isPrintableAscii_of_isWordPart (isWordPart_of_isRadixLetter hc)
    · rcases Bool.or_eq_true_iff.mp hc with hc | hc
      · exact isPrintableAscii_of_isWordPart (isWordPart_of_isHexDigit hc)
      · rw [eq_of_beq hc]
        decide
  have hdecimal : (decimalTail first).Printable := by
    refine .andThen (.andThen printable_digits ?_) printable_exponent
    split
    · exact fun _ => rfl
    · exact printable_fraction
  intro cs
  refine Split.Printable.andThen ?_ (.optional fun c hc => ?_) cs
  · split
    · exact hradix
    · exact hdecimal
  · rw [eq_of_beq hc]
    decide

end Number

/-- The number that starts a text is printable. -/
theorem printable_number {c : Char} {cs : List Char} (h : startsNumber c cs = true) :
    (c :: (Number.tail c cs).1).all isPrintableAscii = true := by
  rw [List.all_cons, Number.printable_tail, Bool.and_true]
  simp only [startsNumber, Bool.or_eq_true, Bool.and_eq_true, beq_iff_eq] at h
  rcases h with h | ⟨rfl, -⟩
  · exact isPrintableAscii_of_isWordPart (Number.isWordPart_of_isDigit h)
  · decide

/-- The numbers of a text are printable. -/
theorem printable_of_mem {offset : Nat} {cs : List Char} {t : Scanned} (ht : t ∈ scanFrom offset cs) {text : String}
    (h : t.token.kind = .number text) : text.toList.all isPrintableAscii = true := by
  obtain ⟨c, ds, hstarts, rfl⟩ := startsNumber_of_mem ht h
  rw [String.toList_ofList]
  exact printable_number hstarts

end Token

end ContractCompiler
