import ContractCompiler.Proofs.Token.Rescan

/-!
# Numbers as they are written

A number is written with digits behind the letter of a base, or with decimal digits, a fraction and an exponent, and the `n` of a
big integer may follow (`Numeral`). What has to stand behind those two letters is for `Rules` to say. By the rules of the scanner,
the numerals are exactly what it takes for numbers; so each of them is one token in front of all that is no part of a word.
-/

namespace ContractCompiler.Token

open Text

/-! ## The parts of a number -/

/-- A base that a letter behind a leading `0` announces. -/
inductive Base where
  | hexadecimal
  | octal
  | binary
deriving DecidableEq, Repr

namespace Base

/-- The letters that announce the base. -/
def letters : Base → List Char
  | .hexadecimal => ['x', 'X']
  | .octal => ['o', 'O']
  | .binary => ['b', 'B']

/-- A letter behind a leading zero announces a base. -/
theorem exists_of_isRadixLetter {c : Char} (h : isRadixLetter c = true) : ∃ base : Base, c ∈ base.letters := by
  have hletters : c ∈ ['x', 'X', 'o', 'O', 'b', 'B'] := List.contains_iff_mem.mp h
  simp only [List.mem_cons, List.not_mem_nil, or_false] at hletters
  rcases hletters with rfl | rfl | rfl | rfl | rfl | rfl
  · exact ⟨.hexadecimal, by simp [letters]⟩
  · exact ⟨.hexadecimal, by simp [letters]⟩
  · exact ⟨.octal, by simp [letters]⟩
  · exact ⟨.octal, by simp [letters]⟩
  · exact ⟨.binary, by simp [letters]⟩
  · exact ⟨.binary, by simp [letters]⟩

theorem isRadixLetter_of_mem {base : Base} {c : Char} (h : c ∈ base.letters) : isRadixLetter c = true := by
  refine List.contains_iff_mem.mpr ?_
  cases base <;> simp only [letters, List.mem_cons, List.not_mem_nil, or_false] at h <;> rcases h with rfl | rfl <;> decide

end Base

/-- A digit of the class, or the separator `_`. -/
def orSeparator (p : Char → Bool) (c : Char) : Bool := p c || c == '_'

/-- Decimal digits with separators among them, a digit coming first. -/
structure IsRun (digits : List Char) : Prop where
  head : digits.head?.any Char.isDigit = true
  all : digits.all (orSeparator Char.isDigit) = true

/-- A text that starts with a character of the class. -/
theorem exists_cons_of_any_head? {p : Char → Bool} {cs : List Char} (h : cs.head?.any p = true) :
    ∃ c ds, cs = c :: ds ∧ p c = true := by
  cases cs with
  | nil => cases h
  | cons c ds => exact ⟨c, ds, rfl, h⟩

/-- The digits behind a first one are a run with it. -/
theorem isRun_digits {d : Char} (h : d.isDigit = true) (cs : List Char) : IsRun (d :: (Number.digits cs).1) := by
  refine ⟨h, ?_⟩
  rw [List.all_cons, orSeparator, h, Bool.true_or, Bool.true_and]
  exact List.all_takeWhile

/-- An exponent as it is written. -/
@[ext]
structure Exponent where
  letter : Char
  sign : Option Char
  digits : List Char
deriving DecidableEq, Repr

/-- The figures of a number as they are written. -/
inductive Figures where
  | based (base : Base) (letter : Char) (digits : List Char)
  | decimal (whole : List Char) (fraction : Option (List Char)) (exponent : Option Exponent)
deriving DecidableEq, Repr

/-- A number as it is written. -/
structure Numeral where
  figures : Figures
  /-- Whether the `n` of a big integer follows. -/
  big : Bool
deriving DecidableEq, Repr

def fractionChars : Option (List Char) → List Char
  | none => []
  | some digits => '.' :: digits

def exponentChars : Option Exponent → List Char
  | none => []
  | some e => e.letter :: (e.sign.toList ++ e.digits)

def bigChars : Bool → List Char
  | true => ['n']
  | false => []

def Figures.chars : Figures → List Char
  | .based _ letter digits => '0' :: letter :: digits
  | .decimal whole fraction exponent => whole ++ (fractionChars fraction ++ exponentChars exponent)

/-- The text of a number. -/
def Numeral.text (n : Numeral) : String := String.ofList (n.figures.chars ++ bigChars n.big)

/-! ## What may stand where -/

/-- What may follow the letter of a base, and what may follow the letter and the sign of an exponent. -/
structure Rules where
  based : Base → List Char → Prop
  exponent : Option Char → List Char → Prop

/-- The scanner takes hexadecimal digits in any base, even none, and in an exponent with a sign it takes digits, even none. -/
def Rules.scanner : Rules where
  based _ digits := digits.all (orSeparator isHexDigit) = true
  exponent sign digits := digits.all Char.isDigit = true ∧ (sign = none → digits ≠ [])

/-- The exponent is written by the rules. -/
def Exponent.Follows (rules : Rules) (e : Exponent) : Prop :=
  e.letter ∈ ['e', 'E'] ∧ e.sign ∈ [none, some '+', some '-'] ∧ rules.exponent e.sign e.digits

/-- The figures are written by the rules. What these leave open apart, a number starts with a decimal digit, or with a point in
front of one, and a digit follows every point. -/
def Figures.Follows (rules : Rules) : Figures → Prop
  | .based base letter digits => letter ∈ base.letters ∧ rules.based base digits
  | .decimal whole fraction exponent =>
    (IsRun whole ∨ whole = [] ∧ fraction ≠ none) ∧ (∀ digits ∈ fraction, IsRun digits) ∧ ∀ e ∈ exponent, e.Follows rules

/-- The number is written by the rules. -/
def Numeral.Follows (rules : Rules) (n : Numeral) : Prop := n.figures.Follows rules

/-- In an exponent that the scanner takes, digits follow a digit or a sign. -/
theorem Exponent.Follows.exists_cons {e : Exponent} (h : e.Follows .scanner) :
    ∃ c cs, e.sign.toList ++ e.digits = c :: cs ∧ (c.isDigit || c == '+' || c == '-') = true ∧
      cs.all Char.isDigit = true := by
  obtain ⟨-, hsign, hdigits, hne⟩ := h
  simp only [List.mem_cons, List.not_mem_nil, or_false] at hsign
  rcases hsign with hsign | hsign | hsign
  · obtain ⟨d, ds, hcons⟩ := List.exists_cons_of_ne_nil (hne hsign)
    rw [hcons, List.all_cons, Bool.and_eq_true] at hdigits
    exact ⟨d, ds, by rw [hsign, hcons]; rfl, by rw [hdigits.1]; rfl, hdigits.2⟩
  · exact ⟨'+', e.digits, by rw [hsign]; rfl, by decide, hdigits⟩
  · exact ⟨'-', e.digits, by rw [hsign]; rfl, by decide, hdigits⟩

/-! ## What a part starts with -/

section

variable {p : Char → Bool}

/-- What two texts do not start with, the one behind the other does not start with. -/
theorem head_append {a b : List Char} (ha : ∀ c ∈ a.head?, p c = false) (hb : ∀ c ∈ b.head?, p c = false) :
    ∀ c ∈ (a ++ b).head?, p c = false := by
  cases a with
  | nil => exact hb
  | cons d ds => exact ha

/-- What the mark of a big integer is not, it does not start with. -/
theorem head_bigChars (h : p 'n' = false) (big : Bool) : ∀ c ∈ (bigChars big).head?, p c = false := by
  cases big with
  | true => exact fun c hc => Option.some.inj hc ▸ h
  | false => simp [bigChars]

/-- An exponent starts with its letter. -/
theorem head_exponentChars {rules : Rules} {exponent : Option Exponent} (hexponent : ∀ e ∈ exponent, e.Follows rules)
    (he : p 'e' = false) (hE : p 'E' = false) : ∀ c ∈ (exponentChars exponent).head?, p c = false := by
  cases exponent with
  | none => simp [exponentChars]
  | some e =>
    intro c hc
    obtain rfl := Option.some.inj hc
    have hletter := (hexponent e rfl).1
    simp only [List.mem_cons, List.not_mem_nil, or_false] at hletter
    rcases hletter with hletter | hletter
    · exact hletter ▸ he
    · exact hletter ▸ hE

/-- A fraction starts with its point. -/
theorem head_fractionChars (h : p '.' = false) (fraction : Option (List Char)) :
    ∀ c ∈ (fractionChars fraction).head?, p c = false := by
  cases fraction with
  | none => simp [fractionChars]
  | some digits => exact fun c hc => Option.some.inj hc ▸ h

/-- Digits start with a digit or a separator. -/
theorem head_digits (h : ∀ c, orSeparator Char.isDigit c = true → p c = false) {digits : List Char}
    (hdigits : digits.all (orSeparator Char.isDigit) = true) : ∀ c ∈ digits.head?, p c = false := by
  cases digits with
  | nil => simp
  | cons d ds =>
    intro c hc
    obtain rfl := Option.some.inj hc
    exact h d (Bool.and_eq_true_iff.mp hdigits).1

end

/-- Decimal digits do not announce another base. -/
theorem not_isRadixLetter_of_digit {c : Char} (h : orSeparator Char.isDigit c = true) : isRadixLetter c = false := by
  rw [Bool.eq_false_iff]
  intro hradix
  obtain ⟨base, hletter⟩ := Base.exists_of_isRadixLetter hradix
  cases base <;> simp only [Base.letters, List.mem_cons, List.not_mem_nil, or_false] at hletter <;>
    rcases hletter with rfl | rfl <;> revert h <;> decide

/-- A decimal number starts as the scanner wants a number to start, and not as one in another base does. -/
theorem starts_decimal {rules : Rules} {whole : List Char} {fraction : Option (List Char)} {exponent : Option Exponent}
    (h : (Figures.decimal whole fraction exponent).Follows rules) (big : Bool) {rest : List Char}
    (hrest : ∀ c ∈ rest.head?, isRadixLetter c = false) :
    ∃ c cs, (Figures.decimal whole fraction exponent).chars ++ bigChars big = c :: cs ∧ startsNumber c (cs ++ rest) = true ∧
      (cs ++ rest).head?.any isRadixLetter = false := by
  obtain ⟨hwhole, hfraction, hexponent⟩ := h
  have hend := head_append (head_append (head_exponentChars hexponent (by decide) (by decide)) (head_bigChars (by decide) big)) hrest
  simp only [Figures.chars, List.append_assoc]
  rcases hwhole with hwhole | ⟨rfl, hsome⟩
  · obtain ⟨d, ds, rfl, hd⟩ := exists_cons_of_any_head? hwhole.head
    refine ⟨d, _, List.cons_append, by rw [startsNumber, hd, Bool.true_or], (Option.any_eq_false _ _).mpr ?_⟩
    simp only [List.append_assoc] at hend ⊢
    exact head_append (head_digits (fun _ => not_isRadixLetter_of_digit) (Bool.and_eq_true_iff.mp hwhole.all).2)
      (head_append (head_fractionChars (by decide) fraction) hend)
  · obtain ⟨digits, rfl⟩ := Option.ne_none_iff_exists'.mp hsome
    have hrun := hfraction digits rfl
    obtain ⟨d, ds, rfl, hd⟩ := exists_cons_of_any_head? hrun.head
    exact ⟨'.', _, rfl, by simp [startsNumber, hd], not_isRadixLetter_of_digit (Bool.and_eq_true_iff.mp hrun.all).1⟩

/-! ## What the scanner takes is written by its rules -/

namespace Number

/-- The digits of a number in another base, with the `n` of a big integer. -/
def radixDigits : Split :=
  (Split.takeWhile fun c => isHexDigit c || c == '_').andThen (Split.optional (· == 'n'))

/-- Behind the letter of a base its digits are taken. -/
theorem tail_of_isRadixLetter {r : Char} (hr : isRadixLetter r = true) (cs : List Char) :
    tail '0' (r :: cs) = (r :: (radixDigits cs).1, (radixDigits cs).2) := by
  simp [tail, hr, radixTail, radixDigits, Split.andThen, Split.optional]

/-- Where no base is announced the number is a decimal one. -/
theorem tail_of_decimal {first : Char} {cs : List Char}
    (h : (first == '0' && cs.head?.any isRadixLetter) = false) :
    tail first cs = (decimalTail first).andThen (Split.optional (· == 'n')) cs := by
  simp only [tail, h, if_neg Bool.false_ne_true]

/-- Behind a digit come more digits, a fraction and an exponent. -/
theorem decimalTail_of_isDigit {d : Char} (h : d.isDigit = true) :
    decimalTail d = (digits.andThen fraction).andThen exponent := by
  rw [decimalTail, if_neg]
  intro hpoint
  rw [eq_of_beq hpoint] at h
  cases h

/-- Behind a point come digits and an exponent. -/
theorem decimalTail_point : decimalTail '.' = (digits.andThen Split.nothing).andThen exponent := rfl

/-- A digit in front of digits is taken with them. -/
theorem digits_cons {d : Char} (h : d.isDigit = true) (cs : List Char) : (digits (d :: cs)).1 = d :: (digits cs).1 := by
  simp [digits, Split.takeWhile, h]

/-- What is taken as a fraction is a point and a run of digits, or nothing. -/
theorem exists_fractionChars (cs : List Char) :
    ∃ taken, (fraction cs).1 = fractionChars taken ∧ ∀ digits ∈ taken, IsRun digits := by
  unfold fraction
  split
  · rename_i d cs
    by_cases hd : d.isDigit = true
    · refine ⟨some (d :: (digits cs).1), by rw [if_pos hd, digits_cons hd]; rfl, fun digits hdigits => ?_⟩
      obtain rfl := Option.some.inj hdigits
      exact isRun_digits hd cs
    · exact ⟨none, by rw [if_neg hd]; rfl, by simp⟩
  · exact ⟨none, rfl, by simp⟩

/-- What is taken as an exponent is one that the scanner takes, or nothing. -/
theorem exists_exponentChars (cs : List Char) :
    ∃ taken, (exponent cs).1 = exponentChars taken ∧ ∀ e ∈ taken, e.Follows .scanner := by
  unfold exponent
  split
  · rename_i letter c cs
    split
    · rename_i h
      simp only [Bool.and_eq_true, Bool.or_eq_true, beq_iff_eq] at h
      obtain ⟨hletter, hc⟩ := h
      have hletter : letter ∈ ['e', 'E'] := by simpa using hletter
      have htaken : (cs.takeWhile Char.isDigit).all Char.isDigit = true := List.all_takeWhile
      by_cases hdigit : c.isDigit = true
      · refine ⟨some ⟨letter, none, c :: cs.takeWhile Char.isDigit⟩, rfl, fun e he => ?_⟩
        obtain rfl := Option.some.inj he
        exact ⟨hletter, by simp, by rw [List.all_cons, hdigit, htaken]; rfl, by simp⟩
      · refine ⟨some ⟨letter, some c, cs.takeWhile Char.isDigit⟩, rfl, fun e he => ?_⟩
        obtain rfl := Option.some.inj he
        exact ⟨hletter, by simpa [hdigit] using hc, htaken, by simp⟩
    · exact ⟨none, rfl, by simp⟩
  · exact ⟨none, rfl, by simp⟩

/-- What is taken as the mark of a big integer is one, or nothing. -/
theorem exists_bigChars (cs : List Char) : ∃ big, (Split.optional (· == 'n') cs).1 = bigChars big := by
  unfold Split.optional
  split
  · split
    · rename_i h
      exact ⟨true, by rw [eq_of_beq h]; rfl⟩
    · exact ⟨false, rfl⟩
  · exact ⟨false, rfl⟩

end Number

/-- What the scanner takes as a number is written by its rules. -/
theorem exists_numeral {c : Char} {cs : List Char} (h : startsNumber c cs = true) :
    ∃ n : Numeral, n.Follows .scanner ∧ n.text = String.ofList (c :: (Number.tail c cs).1) := by
  by_cases hradix : (c == '0' && cs.head?.any isRadixLetter) = true
  · obtain ⟨hc, hr⟩ := Bool.and_eq_true_iff.mp hradix
    obtain rfl := eq_of_beq hc
    obtain ⟨r, ds, rfl, hr⟩ := exists_cons_of_any_head? hr
    obtain ⟨base, hletter⟩ := Base.exists_of_isRadixLetter hr
    obtain ⟨big, hbig⟩ := Number.exists_bigChars (ds.dropWhile (orSeparator isHexDigit))
    refine ⟨⟨.based base r (ds.takeWhile (orSeparator isHexDigit)), big⟩, ⟨hletter, List.all_takeWhile⟩, ?_⟩
    rw [Number.tail_of_isRadixLetter hr, Numeral.text, ← hbig]
    rfl
  · rw [Number.tail_of_decimal (Bool.eq_false_iff.mpr hradix)]
    simp only [startsNumber, Bool.or_eq_true, Bool.and_eq_true, beq_iff_eq] at h
    rcases h with hc | ⟨rfl, hd⟩
    · simp only [Number.decimalTail_of_isDigit hc, Split.andThen]
      obtain ⟨fraction, hfraction, hrun⟩ := Number.exists_fractionChars (Number.digits cs).2
      obtain ⟨exponent, hexponent, hfollows⟩ := Number.exists_exponentChars (Number.fraction (Number.digits cs).2).2
      obtain ⟨big, hbig⟩ := Number.exists_bigChars (Number.exponent (Number.fraction (Number.digits cs).2).2).2
      refine ⟨⟨.decimal (c :: (Number.digits cs).1) fraction exponent, big⟩, ⟨.inl (isRun_digits hc cs), hrun, hfollows⟩, ?_⟩
      simp [Numeral.text, Figures.chars, hfraction, hexponent, hbig]
    · obtain ⟨d, ds, rfl, hd⟩ := exists_cons_of_any_head? hd
      simp only [Number.decimalTail_point, Split.andThen, Split.nothing, Number.digits_cons hd]
      obtain ⟨exponent, hexponent, hfollows⟩ := Number.exists_exponentChars (Number.digits (d :: ds)).2
      obtain ⟨big, hbig⟩ := Number.exists_bigChars (Number.exponent (Number.digits (d :: ds)).2).2
      refine ⟨⟨.decimal [] (some (d :: (Number.digits ds).1)) exponent, big⟩, ⟨.inr ⟨rfl, by simp⟩, ?_, hfollows⟩, ?_⟩
      · intro digits hdigits
        obtain rfl := Option.some.inj hdigits
        exact isRun_digits hd ds
      · simp [Numeral.text, Figures.chars, fractionChars, hexponent, hbig]

/-! ## What is written by its rules the scanner takes -/

/-- Characters that are no parts of words are of no class of such parts. -/
theorem Delimited.not_of_isWordPart {p : Char → Bool} (hp : ∀ c, p c = true → isWordPart c = true) {rest : List Char}
    (h : Delimited rest) : ∀ c ∈ rest.head?, p c = false := by
  intro c hc
  rw [Bool.eq_false_iff]
  intro hpc
  have hnot := h.head c hc
  rw [hp c hpc] at hnot
  cases hnot

/-- What cannot be taken for more digits of a decimal number, or for its fraction. -/
structure Number.Ends (rest : List Char) : Prop where
  head : ∀ c ∈ rest.head?, orSeparator Char.isDigit c = false
  point : ∀ d cs, rest = '.' :: d :: cs → d.isDigit = false

namespace Number.Ends

variable {rest : List Char}

/-- What ends a word or a number ends a decimal number. -/
theorem of_delimited (h : Delimited rest) : Ends rest where
  head := h.not_of_isWordPart fun _ => isWordPart_of_digit
  point := h.point

/-- So does what it ends with the mark of a big integer in front. -/
theorem bigChars (h : Ends rest) (big : Bool) : Ends (bigChars big ++ rest) where
  head := head_append (head_bigChars (by decide) big) h.head
  point d cs heq := by
    cases big with
    | true => cases heq
    | false => exact h.point d cs heq

theorem exponentChars (h : Ends rest) {rules : Rules} {exponent : Option Exponent}
    (hexponent : ∀ e ∈ exponent, e.Follows rules) : Ends (exponentChars exponent ++ rest) where
  head := head_append (head_exponentChars hexponent (by decide) (by decide)) h.head
  point d cs heq := by
    cases exponent with
    | none => exact h.point d cs heq
    | some e =>
      have hletter := (hexponent e rfl).1
      rw [(List.cons.inj heq).1] at hletter
      exact absurd hletter (by decide)

end Number.Ends

/-- The split takes this much of a text, in front of `rest`. -/
def Exactly (f : Split) (taken rest : List Char) : Prop := f (taken ++ rest) = (taken, rest)

namespace Exactly

variable {f g : Split} {p : Char → Bool} {taken more rest : List Char}

/-- One split takes what stands in front, and the next one what stands behind it. -/
theorem andThen (hf : Exactly f taken (more ++ rest)) (hg : Exactly g more rest) :
    Exactly (f.andThen g) (taken ++ more) rest := by
  unfold Exactly at hf hg ⊢
  rw [List.append_assoc, Split.andThen, hf, hg]

/-- What is taken while a condition holds ends where it does not. -/
theorem takeWhile (htaken : taken.all p = true) (hrest : ∀ c ∈ rest.head?, p c = false) :
    Exactly (Split.takeWhile p) taken rest := by
  obtain ⟨htake, hdrop⟩ := takeWhile_append_of_head htaken hrest
  exact Prod.ext htake hdrop

/-- Nothing is taken. -/
theorem nothing (rest : List Char) : Exactly Split.nothing [] rest := rfl

/-- Digits are taken up to what is none. -/
theorem digits (htaken : taken.all (orSeparator Char.isDigit) = true)
    (hrest : ∀ c ∈ rest.head?, orSeparator Char.isDigit c = false) : Exactly Number.digits taken rest :=
  takeWhile htaken hrest

/-- A fraction is taken as it is written. -/
theorem fraction {fraction : Option (List Char)} (h : ∀ digits ∈ fraction, IsRun digits) (hrest : Number.Ends rest) :
    Exactly Number.fraction (fractionChars fraction) rest := by
  cases fraction with
  | none =>
    unfold Exactly Number.fraction fractionChars
    split
    · rename_i d cs hpoint
      rw [hrest.point d cs hpoint, if_neg Bool.false_ne_true, ← hpoint]
      rfl
    · rfl
  | some digits =>
    have hrun := h digits rfl
    obtain ⟨d, ds, rfl, hd⟩ := exists_cons_of_any_head? hrun.head
    have hdigits : Number.digits (d :: (ds ++ rest)) = (d :: ds, rest) := Exactly.digits hrun.all hrest.head
    unfold Exactly
    rw [fractionChars, List.cons_append, List.cons_append, Number.fraction, if_pos hd, hdigits]

theorem exponent {exponent : Option Exponent} (h : ∀ e ∈ exponent, e.Follows .scanner) (hrest : Number.Ends rest)
    (hletter : ∀ c ∈ rest.head?, (c == 'e' || c == 'E') = false) :
    Exactly Number.exponent (exponentChars exponent) rest := by
  cases exponent with
  | none =>
    unfold Exactly Number.exponent exponentChars
    split
    · rename_i e c cs hcons
      have he : (e == 'e' || e == 'E') = false := hletter e (by rw [show rest = _ from hcons]; rfl)
      rw [he, Bool.false_and, if_neg Bool.false_ne_true, ← hcons]
      rfl
    · rfl
  | some e =>
    obtain ⟨c, cs, hchars, hc, hcs⟩ := (h e rfl).exists_cons
    have he : (e.letter == 'e' || e.letter == 'E') = true := by simpa using (h e rfl).1
    obtain ⟨htake, hdrop⟩ := takeWhile_append_of_head hcs fun d hd => (Bool.or_eq_false_iff.mp (hrest.head d hd)).1
    unfold Exactly
    rw [exponentChars, hchars, List.cons_append, List.cons_append, Number.exponent, if_pos (by rw [he, hc]; rfl), htake,
      hdrop]

theorem big (hrest : ∀ c ∈ rest.head?, (c == 'n') = false) (big : Bool) :
    Exactly (Split.optional (· == 'n')) (bigChars big) rest := by
  cases big with
  | true => rfl
  | false =>
    cases rest with
    | nil => rfl
    | cons c rest =>
      have hc : (c == 'n') = false := hrest c rfl
      unfold Exactly bigChars
      rw [List.nil_append, Split.optional, hc, if_neg Bool.false_ne_true]

end Exactly

/-- What is written by the rules of the scanner, it takes as one number. -/
theorem Numeral.tail_text {n : Numeral} (h : n.Follows .scanner) {rest : List Char} (hrest : Delimited rest) :
    ∃ c cs, n.text = String.ofList (c :: cs) ∧ startsNumber c (cs ++ rest) = true ∧
      Number.tail c (cs ++ rest) = (cs, rest) := by
  obtain ⟨figures, big⟩ := n
  have hbig : Exactly (Split.optional (· == 'n')) (bigChars big) rest := by
    refine .big (hrest.not_of_isWordPart fun c hc => ?_) big
    rw [eq_of_beq hc]
    decide
  cases figures with
  | based base letter digits =>
    refine ⟨'0', letter :: (digits ++ bigChars big), rfl, rfl, ?_⟩
    have hdigits : Exactly (Split.takeWhile (orSeparator isHexDigit)) digits (bigChars big ++ rest) := by
      refine .takeWhile h.2 (head_append (head_bigChars (by decide) big) (hrest.not_of_isWordPart fun c hc => ?_))
      rcases Bool.or_eq_true_iff.mp hc with hc | hc
      · exact Number.isWordPart_of_isHexDigit hc
      · simp [isWordPart, hc]
    have hradix : Number.radixDigits (digits ++ bigChars big ++ rest) = (digits ++ bigChars big, rest) :=
      hdigits.andThen hbig
    rw [List.cons_append, Number.tail_of_isRadixLetter (Base.isRadixLetter_of_mem h.1), hradix]
  | decimal whole fraction exponent =>
    obtain ⟨c, cs, hchars, hstarts, hradix⟩ :=
      starts_decimal h big (hrest.not_of_isWordPart fun _ => Number.isWordPart_of_isRadixLetter)
    refine ⟨c, cs, by rw [Numeral.text, hchars], hstarts, ?_⟩
    rw [Number.tail_of_decimal (by rw [hradix, Bool.and_false])]
    obtain ⟨hwhole, hfraction, hexponent⟩ := h
    have hends := (Number.Ends.of_delimited hrest).bigChars big
    have hpower : Exactly Number.exponent (exponentChars exponent) (bigChars big ++ rest) := by
      refine .exponent hexponent hends (head_append (head_bigChars (by decide) big) (hrest.not_of_isWordPart fun c hc => ?_))
      rcases Bool.or_eq_true_iff.mp hc with hc | hc <;> rw [eq_of_beq hc] <;> decide
    have hends := hends.exponentChars hexponent
    rcases hwhole with hwhole | ⟨rfl, hsome⟩
    · obtain ⟨d, ds, rfl, hd⟩ := exists_cons_of_any_head? hwhole.head
      simp only [Figures.chars, List.cons_append, List.append_assoc, List.cons.injEq] at hchars
      obtain ⟨rfl, rfl⟩ := hchars
      have hdigits := Exactly.digits (Bool.and_eq_true_iff.mp hwhole.all).2
        (head_append (head_fractionChars (by decide) fraction) hends.head)
      have htail := ((hdigits.andThen (.fraction hfraction hends)).andThen hpower).andThen hbig
      simp only [Exactly, List.append_assoc] at htail ⊢
      rw [Number.decimalTail_of_isDigit hd, htail]
    · obtain ⟨digits, rfl⟩ := Option.ne_none_iff_exists'.mp hsome
      simp only [Figures.chars, fractionChars, List.nil_append, List.cons_append, List.append_assoc, List.cons.injEq] at hchars
      obtain ⟨rfl, rfl⟩ := hchars
      have hdigits : Exactly Number.digits digits ([] ++ (exponentChars exponent ++ (bigChars big ++ rest))) :=
        .digits (hfraction digits rfl).all hends.head
      have htail := ((hdigits.andThen (.nothing _)).andThen hpower).andThen hbig
      simp only [Exactly, List.append_assoc, List.append_nil] at htail ⊢
      rw [Number.decimalTail_point, htail]

/-! ## Numbers as tokens -/

/-- A number is one token. -/
theorem Numeral.scans_text {n : Numeral} (h : n.Follows .scanner) {rest : List Char} (hrest : Delimited rest) :
    Scans n.text.toList [.number n.text] rest := by
  obtain ⟨c, cs, htext, hstarts, htail⟩ := n.tail_text h hrest
  have hvisible : isVisible c = true := by
    simp only [startsNumber, Bool.or_eq_true, Bool.and_eq_true, beq_iff_eq] at hstarts
    rcases hstarts with hdigit | ⟨rfl, -⟩
    · exact isVisible_of_isWordPart (Number.isWordPart_of_isDigit hdigit)
    · decide
  rw [htext, String.toList_ofList]
  refine .token hvisible fun offset => ?_
  rw [lexeme_of_startsNumber hstarts, Lexeme.number, htail]

/-- What was cut off as a number is one token. -/
theorem scans_number {c : Char} {cs rest : List Char} (h : startsNumber c cs = true) (hrest : Delimited rest) :
    Scans (c :: (Number.tail c cs).1) [.number (String.ofList (c :: (Number.tail c cs).1))] rest := by
  obtain ⟨n, hn, htext⟩ := exists_numeral h
  have hscans := n.scans_text hn hrest
  rwa [htext, String.toList_ofList] at hscans

/-- A number of a text is one token wherever it is written. -/
theorem scans_number_of_mem {offset : Nat} {cs : List Char} {t : Scanned} (ht : t ∈ scanFrom offset cs) {text : String}
    (h : t.token.kind = .number text) {rest : List Char} (hrest : Delimited rest) :
    Scans text.toList [.number text] rest := by
  obtain ⟨c, ds, hc, rfl⟩ := startsNumber_of_mem ht h
  simpa using scans_number hc hrest

end ContractCompiler.Token
