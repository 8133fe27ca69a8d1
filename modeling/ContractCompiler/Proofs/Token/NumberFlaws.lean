import ContractCompiler.Proofs.Token.Numerals

/-!
# Numbers that the language does not have

The language wants a digit behind the letter of a base, and of that base, and a digit behind the sign of an exponent; the scanner is
content with less. None of its numbers is ever reported, and the language has all of them but those with a `Flaw`. This can be told
from a numeral because a text is a number in one way only.
-/

namespace ContractCompiler.Token

open Text

/-! ## The rules of the language -/

namespace Base

/-- How many digits the base has. -/
def size : Base → Nat
  | .hexadecimal => 16
  | .octal => 8
  | .binary => 2

/-- Whether `c` is a digit of the base. -/
def isDigit (base : Base) (c : Char) : Bool := (hexValue? c).any (· < base.size)

/-- The digits of every base are hexadecimal digits. -/
theorem isHexDigit_of_isDigit {base : Base} {c : Char} (h : base.isDigit c = true) : isHexDigit c = true := by
  obtain ⟨value, hvalue, -⟩ := (Option.any_eq_true _ _).mp h
  rw [isHexDigit, hvalue, Option.isSome_some]

/-- The separator is no digit. -/
theorem not_isDigit_separator (base : Base) : base.isDigit '_' = false := by
  cases base <;> decide

/-- A letter announces one base. -/
theorem eq_of_mem_letters {a b : Base} {c : Char} (ha : c ∈ a.letters) (hb : c ∈ b.letters) : a = b := by
  cases a <;> cases b <;> simp only [letters, List.mem_cons, List.not_mem_nil, or_false] at ha hb <;>
    rcases ha with rfl | rfl <;> revert hb <;> decide

end Base

namespace Rules

/-- The language wants digits of the base only, and at least one; in an exponent it wants digits. -/
def language : Rules where
  based base digits := digits.all (orSeparator base.isDigit) = true ∧ digits.any base.isDigit = true
  exponent _ digits := IsRun digits

/-- What both allow, and no less than is needed to tell the parts of a number apart. -/
def loose : Rules where
  based _ digits := digits.all (orSeparator isHexDigit) = true
  exponent _ digits := digits.all (orSeparator Char.isDigit) = true

end Rules

/-- The text is a number of the language. -/
def IsNumber (text : String) : Prop := ∃ n : Numeral, n.Follows .language ∧ n.text = text

/-- What the scanner lets pass. -/
inductive Flaw where
  /-- No digit follows the letter of a base. -/
  | noDigit
  /-- A digit follows that the base does not have. -/
  | foreignDigit
  /-- No digit follows the sign of an exponent. -/
  | noExponentDigit
deriving DecidableEq, Repr

/-- What is wrong with a number that the scanner takes. -/
def Numeral.flaw? (n : Numeral) : Option Flaw :=
  match n.figures with
  | .based base _ digits =>
    if digits.all (· == '_') then some .noDigit
    else if digits.all (orSeparator base.isDigit) then none
    else some .foreignDigit
  | .decimal _ _ exponent => if exponent.any fun e => e.digits.isEmpty then some .noExponentDigit else none

/-- The digits in front of a point, if any, are digits and separators. -/
theorem all_of_isRun_or {whole : List Char} {P : Prop} (h : IsRun whole ∨ whole = [] ∧ P) :
    whole.all (orSeparator Char.isDigit) = true := by
  rcases h with hrun | ⟨rfl, -⟩
  · exact hrun.all
  · rfl

/-- Digits are digits and separators. -/
theorem all_orSeparator {digits : List Char} (h : digits.all Char.isDigit = true) :
    digits.all (orSeparator Char.isDigit) = true := by
  refine List.all_eq_true.mpr fun c hc => ?_
  rw [orSeparator, List.all_eq_true.mp h c hc, Bool.true_or]

/-- Plain digits are such digits, unless there are none. -/
theorem isRun_iff_ne_nil {digits : List Char} (h : digits.all Char.isDigit = true) : IsRun digits ↔ digits ≠ [] := by
  cases digits with
  | nil => exact iff_of_false (fun hrun => Bool.false_ne_true hrun.head) (by simp)
  | cons d ds => exact iff_of_true ⟨(Bool.and_eq_true_iff.mp h).1, all_orSeparator h⟩ (by simp)

namespace Figures.Follows

variable {figures : Figures}

/-- What is written by some rules is written by all that allow more. -/
theorem mono {strict lax : Rules} (h : figures.Follows strict)
    (hbased : ∀ base digits, strict.based base digits → lax.based base digits)
    (hexponent : ∀ sign digits, strict.exponent sign digits → lax.exponent sign digits) : figures.Follows lax := by
  cases figures with
  | based base letter digits => exact ⟨h.1, hbased base digits h.2⟩
  | decimal whole fraction exponent =>
    refine ⟨h.1, h.2.1, fun e he => ?_⟩
    obtain ⟨hletter, hsign, hdigits⟩ := h.2.2 e he
    exact ⟨hletter, hsign, hexponent e.sign e.digits hdigits⟩

/-- What the language allows is allowed loosely. -/
theorem loose_of_language (h : figures.Follows .language) : figures.Follows .loose := by
  refine h.mono (fun base digits hdigits => ?_) fun sign digits hdigits => hdigits.all
  refine List.all_eq_true.mpr fun c hc => ?_
  have hdigit := List.all_eq_true.mp hdigits.1 c hc
  simp only [orSeparator, Bool.or_eq_true] at hdigit ⊢
  exact hdigit.imp_left Base.isHexDigit_of_isDigit

theorem loose_of_scanner (h : figures.Follows .scanner) : figures.Follows .loose :=
  h.mono (fun _ _ hdigits => hdigits) fun _ _ hdigits => all_orSeparator hdigits.1

end Figures.Follows

/-! ## Flaws -/

/-- Digits of the base are what stands behind its letter if something but separators does, and no other digit. -/
theorem language_based_iff {base : Base} {digits : List Char} :
    Rules.language.based base digits ↔
      digits.all (· == '_') = false ∧ digits.all (orSeparator base.isDigit) = true := by
  refine ⟨fun ⟨hall, hany⟩ => ⟨?_, hall⟩, fun ⟨hsome, hall⟩ => ⟨hall, ?_⟩⟩
  · obtain ⟨c, hc, hdigit⟩ := List.any_eq_true.mp hany
    refine List.all_eq_false.mpr ⟨c, hc, fun hseparator => ?_⟩
    rw [eq_of_beq hseparator, base.not_isDigit_separator] at hdigit
    cases hdigit
  · obtain ⟨c, hc, hne⟩ := List.all_eq_false.mp hsome
    have hdigit := List.all_eq_true.mp hall c hc
    simp only [orSeparator, Bool.or_eq_true] at hdigit
    exact List.any_eq_true.mpr ⟨c, hc, hdigit.resolve_right hne⟩

/-- A number that the scanner takes is one of the language exactly if nothing is wrong with it. -/
theorem Numeral.follows_language_iff {n : Numeral} (h : n.Follows .scanner) : n.Follows .language ↔ n.flaw? = none := by
  obtain ⟨figures, big⟩ := n
  cases figures with
  | based base letter digits =>
    have hflaw : Numeral.flaw? ⟨.based base letter digits, big⟩ = none ↔
        digits.all (· == '_') = false ∧ digits.all (orSeparator base.isDigit) = true := by
      cases hseparators : digits.all (· == '_') <;> cases hdigits : digits.all (orSeparator base.isDigit) <;>
        simp [Numeral.flaw?, hseparators, hdigits]
    rw [hflaw, ← language_based_iff]
    exact and_iff_right h.1
  | decimal whole fraction exponent =>
    obtain ⟨hwhole, hfraction, hexponent⟩ := h
    cases exponent with
    | none => exact iff_of_true ⟨hwhole, hfraction, by simp⟩ rfl
    | some e =>
      obtain ⟨hletter, hsign, hdigits, -⟩ := hexponent e rfl
      have hflaw : Numeral.flaw? ⟨.decimal whole fraction (some e), big⟩ = none ↔ e.digits ≠ [] := by
        simp [Numeral.flaw?]
      rw [hflaw, ← isRun_iff_ne_nil hdigits]
      refine ⟨fun hlanguage => (hlanguage.2.2 e rfl).2.2, fun hrun => ⟨hwhole, hfraction, fun e' he' => ?_⟩⟩
      cases he'
      exact ⟨hletter, hsign, hrun⟩

/-! ## Telling the parts apart -/

/-- A text starts in one way with characters of a class that none of the class follows. -/
theorem append_inj_of_head {p : Char → Bool} {a b r s : List Char} (ha : a.all p = true) (hb : b.all p = true)
    (hr : ∀ c ∈ r.head?, p c = false) (hs : ∀ c ∈ s.head?, p c = false) (h : a ++ r = b ++ s) : a = b ∧ r = s := by
  obtain ⟨htake, hdrop⟩ := takeWhile_append_of_head ha hr
  obtain ⟨htake', hdrop'⟩ := takeWhile_append_of_head hb hs
  rw [h] at htake hdrop
  exact ⟨htake.symm.trans htake', hdrop.symm.trans hdrop'⟩

/-- The mark of a big integer tells whether there is one. -/
theorem bigChars_inj {big big' : Bool} (h : bigChars big = bigChars big') : big = big' := by
  cases big <;> cases big' <;> simp_all [bigChars]

/-- The signs of an exponent. -/
def isSign (c : Char) : Bool := c == '+' || c == '-'

/-- The sign of an exponent is a sign. -/
theorem all_isSign {sign : Option Char} (h : sign ∈ [none, some '+', some '-']) : sign.toList.all isSign = true := by
  simp only [List.mem_cons, List.not_mem_nil, or_false] at h
  rcases h with rfl | rfl | rfl <;> rfl

/-- A digit is no sign. -/
theorem not_isSign_of_digit {c : Char} (h : orSeparator Char.isDigit c = true) : isSign c = false := by
  rw [Bool.eq_false_iff]
  simp only [isSign, ne_eq, Bool.or_eq_true, beq_iff_eq]
  rintro (rfl | rfl) <;> revert h <;> decide

/-- An exponent can be told from the mark of a big integer. -/
theorem bigChars_ne_cons {rules : Rules} {e : Exponent} (h : e.Follows rules) (big : Bool) (rest : List Char) :
    bigChars big ≠ e.letter :: rest := by
  intro heq
  have hletter := h.1
  cases big with
  | true =>
    rw [← (List.cons.inj heq).1] at hletter
    revert hletter
    decide
  | false => cases heq

/-- The text behind the fraction tells the exponent and the mark of a big integer. -/
theorem exponentChars_append_inj {a b : Option Exponent} {big big' : Bool} (ha : ∀ e ∈ a, e.Follows .loose)
    (hb : ∀ e ∈ b, e.Follows .loose) (h : exponentChars a ++ bigChars big = exponentChars b ++ bigChars big') :
    a = b ∧ big = big' := by
  cases a with
  | none =>
    cases b with
    | none => exact ⟨rfl, bigChars_inj h⟩
    | some e => exact absurd h (bigChars_ne_cons (hb e rfl) big _)
  | some e =>
    cases b with
    | none => exact absurd h.symm (bigChars_ne_cons (ha e rfl) big' _)
    | some e' =>
      obtain ⟨-, hsign, hdigits⟩ := ha e rfl
      obtain ⟨-, hsign', hdigits'⟩ := hb e' rfl
      simp only [exponentChars, List.cons_append, List.append_assoc, List.cons.injEq] at h
      obtain ⟨hletters, hrest⟩ := h
      obtain ⟨hsigns, hrest⟩ := append_inj_of_head (all_isSign hsign) (all_isSign hsign')
        (head_append (head_digits (fun _ => not_isSign_of_digit) hdigits) (head_bigChars (by decide) big))
        (head_append (head_digits (fun _ => not_isSign_of_digit) hdigits') (head_bigChars (by decide) big')) hrest
      obtain ⟨hdigits, hbig⟩ := append_inj_of_head hdigits hdigits' (head_bigChars (by decide) big)
        (head_bigChars (by decide) big') hrest
      have hsigns : e.sign = e'.sign := by simpa using congrArg List.head? hsigns
      exact ⟨congrArg some (Exponent.ext hletters hsigns hdigits), bigChars_inj hbig⟩

/-- No digit comes behind the last one. -/
theorem head_behind_digits {rules : Rules} {exponent : Option Exponent} (h : ∀ e ∈ exponent, e.Follows rules) (big : Bool) :
    ∀ c ∈ (exponentChars exponent ++ bigChars big).head?, orSeparator Char.isDigit c = false :=
  head_append (head_exponentChars h (by decide) (by decide)) (head_bigChars (by decide) big)

/-- A fraction can be told from an exponent. -/
theorem exponentChars_ne_cons {rules : Rules} {exponent : Option Exponent} (h : ∀ e ∈ exponent, e.Follows rules) (big : Bool)
    (rest : List Char) : exponentChars exponent ++ bigChars big ≠ '.' :: rest := by
  intro heq
  have hpoint : ∀ c ∈ (exponentChars exponent ++ bigChars big).head?, (c == '.') = false :=
    head_append (head_exponentChars h (by decide) (by decide)) (head_bigChars (by decide) big)
  exact absurd (hpoint '.' (by rw [heq]; rfl)) (by decide)

/-- The text behind the digits tells the fraction, the exponent and the mark of a big integer. -/
theorem fractionChars_append_inj {f g : Option (List Char)} {a b : Option Exponent} {big big' : Bool}
    (hf : ∀ digits ∈ f, IsRun digits) (hg : ∀ digits ∈ g, IsRun digits) (ha : ∀ e ∈ a, e.Follows .loose)
    (hb : ∀ e ∈ b, e.Follows .loose)
    (h : fractionChars f ++ (exponentChars a ++ bigChars big) = fractionChars g ++ (exponentChars b ++ bigChars big')) :
    f = g ∧ a = b ∧ big = big' := by
  cases f with
  | none =>
    cases g with
    | none => exact ⟨rfl, exponentChars_append_inj ha hb h⟩
    | some digits => exact absurd h (exponentChars_ne_cons ha big _)
  | some digits =>
    cases g with
    | none => exact absurd h.symm (exponentChars_ne_cons hb big' _)
    | some digits' =>
      simp only [fractionChars, List.cons_append, List.cons.injEq, true_and] at h
      obtain ⟨rfl, hrest⟩ := append_inj_of_head (hf _ rfl).all (hg _ rfl).all
        (head_behind_digits ha big) (head_behind_digits hb big') h
      exact ⟨rfl, exponentChars_append_inj ha hb hrest⟩

/-- The second character tells a number in another base from a decimal one. -/
theorem decimal_ne_based {base : Base} {letter : Char} {digits whole : List Char} {fraction : Option (List Char)}
    {exponent : Option Exponent} {rules : Rules} (hletter : letter ∈ base.letters)
    (h : (Figures.decimal whole fraction exponent).Follows rules) (big big' : Bool) :
    (Figures.decimal whole fraction exponent).chars ++ bigChars big ≠
      (Figures.based base letter digits).chars ++ bigChars big' := by
  intro heq
  have hnone : ∀ c ∈ ([] : List Char).head?, isRadixLetter c = false := by simp
  obtain ⟨c, cs, hchars, -, hradix⟩ := starts_decimal h big hnone
  rw [hchars] at heq
  obtain ⟨-, rfl⟩ := List.cons.inj heq
  have hhead : isRadixLetter letter = false := hradix
  rw [Base.isRadixLetter_of_mem hletter] at hhead
  cases hhead

/-- A number is written as a text in one way. -/
theorem Numeral.eq_of_text_eq {n m : Numeral} (hn : n.Follows .loose) (hm : m.Follows .loose) (h : n.text = m.text) :
    n = m := by
  obtain ⟨figures, big⟩ := n
  obtain ⟨figures', big'⟩ := m
  have h : figures.chars ++ bigChars big = figures'.chars ++ bigChars big' := String.ofList_injective h
  cases figures with
  | based base letter digits =>
    cases figures' with
    | based base' letter' digits' =>
      simp only [Figures.chars, List.cons_append, List.cons.injEq, true_and] at h
      obtain ⟨rfl, hrest⟩ := h
      obtain ⟨rfl, hbig⟩ := append_inj_of_head hn.2 hm.2 (head_bigChars (by decide) big) (head_bigChars (by decide) big') hrest
      rw [Base.eq_of_mem_letters hn.1 hm.1, bigChars_inj hbig]
    | decimal whole fraction exponent => exact absurd h.symm (decimal_ne_based hn.1 hm big' big)
  | decimal whole fraction exponent =>
    cases figures' with
    | based base letter digits => exact absurd h (decimal_ne_based hm.1 hn big big')
    | decimal whole' fraction' exponent' =>
      obtain ⟨hwhole, hfraction, hexponent⟩ := hn
      obtain ⟨hwhole', hfraction', hexponent'⟩ := hm
      simp only [Figures.chars, List.append_assoc] at h
      obtain ⟨rfl, hrest⟩ := append_inj_of_head (all_of_isRun_or hwhole) (all_of_isRun_or hwhole')
        (head_append (head_fractionChars (by decide) fraction) (head_behind_digits hexponent big))
        (head_append (head_fractionChars (by decide) fraction') (head_behind_digits hexponent' big')) h
      obtain ⟨rfl, rfl, rfl⟩ := fractionChars_append_inj hfraction hfraction' hexponent hexponent' hrest
      rfl

/-! ## The numbers of a text -/

/-- The text of a number that the scanner takes is one of the language exactly if nothing is wrong with it. -/
theorem Numeral.Follows.isNumber_text_iff {n : Numeral} (h : n.Follows .scanner) : IsNumber n.text ↔ n.flaw? = none := by
  rw [← n.follows_language_iff h]
  refine ⟨fun ⟨m, hm, htext⟩ => ?_, fun hn => ⟨n, hn, rfl⟩⟩
  rwa [← Numeral.eq_of_text_eq hm.loose_of_language h.loose_of_scanner htext]

/-- Nothing is reported about a number. -/
theorem errors_of_number {offset : Nat} {cs : List Char} {t : Scanned} (ht : t ∈ scanFrom offset cs) {text : String}
    (h : t.token.kind = .number text) : t.errors = [] := by
  rcases lexeme_of_mem ht with hend | ⟨start, c, ds, hkind, herrors⟩
  · rw [hend] at h
    cases h
  · obtain ⟨hstarts, -⟩ := startsNumber_of_kind (hkind.symm.trans h)
    rw [herrors, lexeme_of_startsNumber hstarts]
    rfl

/-- A number is one token, and the only one of its text. -/
theorem Numeral.scan_text {n : Numeral} (h : n.Follows .scanner) :
    (scan n.text).map (fun t => t.token.kind) = [.number n.text, .endOfInput] := by
  have hscans : Scans n.text.toList [.number n.text] [] := n.scans_text h ⟨by simp, by simp⟩
  exact hscans.scan.1

/-- The scanner reports no number, whatever it is. What it takes for one is written by rules that are those of the language but
for three flaws that they let pass: no digit behind the letter of a base, a digit that the base does not have, and no digit behind the
sign of an exponent. A number is one of the language exactly if it has none of them, and a source text by these rules, with a flaw or
without, is one number. -/
theorem numbers_wellFormed_unless_flawed (source : String) :
    (∀ t ∈ scan source, ∀ text, t.token.kind = .number text → t.errors = [] ∧
      ∃ n : Numeral, n.Follows .scanner ∧ n.text = text ∧ (IsNumber text ↔ n.flaw? = none)) ∧
    ∀ n : Numeral, n.Follows .scanner → n.text = source →
      (scan source).map (fun t => t.token.kind) = [.number source, .endOfInput] := by
  refine ⟨fun t ht text hkind => ⟨errors_of_number ht hkind, ?_⟩, fun n hn htext => htext ▸ n.scan_text hn⟩
  obtain ⟨c, cs, hstarts, rfl⟩ := startsNumber_of_mem ht hkind
  obtain ⟨n, hn, htext⟩ := exists_numeral hstarts
  exact ⟨n, hn, htext, htext ▸ hn.isNumber_text_iff⟩

/-- Three numbers, the last two of them with a flaw. -/
def trialSource : String := "0xF_fn+0o18-1.5e-"

/-- The numbers in `trialSource` are taken as they are written, with or without a flaw. -/
theorem trialSource_numbers :
    ((⟨⟨.number "0xF_fn", ⟨0, 6⟩, false⟩, []⟩ : Scanned) ∈ scan trialSource ∧
      ∃ n : Numeral, n.Follows .scanner ∧ n.text = "0xF_fn" ∧ (IsNumber "0xF_fn" ↔ n.flaw? = none)) ∧
    ((⟨⟨.number "1.5e-", ⟨12, 17⟩, false⟩, []⟩ : Scanned) ∈ scan trialSource ∧
      ∃ n : Numeral, n.Follows .scanner ∧ n.text = "1.5e-" ∧ (IsNumber "1.5e-" ↔ n.flaw? = none)) ∧
    Numeral.Follows .scanner ⟨.based .octal 'o' ['1', '8'], false⟩ ∧
      (scan "0o18").map (fun t => t.token.kind) = [.number "0o18", .endOfInput] := by
  have hfirst : (⟨⟨.number "0xF_fn", ⟨0, 6⟩, false⟩, []⟩ : Scanned) ∈ scan trialSource := by decide +kernel
  have hlast : (⟨⟨.number "1.5e-", ⟨12, 17⟩, false⟩, []⟩ : Scanned) ∈ scan trialSource := by decide +kernel
  have hoctal : Numeral.Follows .scanner ⟨.based .octal 'o' ['1', '8'], false⟩ := ⟨by decide, rfl⟩
  exact ⟨⟨hfirst, ((numbers_wellFormed_unless_flawed trialSource).1 _ hfirst "0xF_fn" rfl).2⟩,
    ⟨hlast, ((numbers_wellFormed_unless_flawed trialSource).1 _ hlast "1.5e-" rfl).2⟩, hoctal,
    (numbers_wellFormed_unless_flawed "0o18").2 _ hoctal (by decide)⟩

/-- A number with each of the flaws. -/
def flawedSource : String := "0x 0b12 1e+"

/-- Each of the flaws is let pass without a fault. -/
theorem flawedSource_unreported :
    (∀ t ∈ scan flawedSource, t.errors = []) ∧
    ∀ text ∈ ["0x", "0b12", "1e+"], (∃ t ∈ scan flawedSource, t.token.kind = .number text) ∧ ¬ IsNumber text := by
  have hletter : Numeral.Follows .scanner ⟨.based .hexadecimal 'x' [], false⟩ := ⟨by decide, rfl⟩
  have hbinary : Numeral.Follows .scanner ⟨.based .binary 'b' ['1', '2'], false⟩ := ⟨by decide, rfl⟩
  have hsign : Numeral.Follows .scanner ⟨.decimal ['1'] none (some ⟨'e', some '+', []⟩), false⟩ := by
    refine ⟨.inl ⟨rfl, rfl⟩, by simp, fun e he => ?_⟩
    obtain rfl := Option.some.inj he
    exact ⟨by decide, by decide, rfl, by simp⟩
  refine ⟨by decide +kernel, List.forall_mem_cons.mpr ⟨⟨by decide +kernel, ?_⟩,
    List.forall_mem_cons.mpr ⟨⟨by decide +kernel, ?_⟩, List.forall_mem_singleton.mpr ⟨by decide +kernel, ?_⟩⟩⟩⟩
  · exact fun h => absurd (hletter.isNumber_text_iff.mp h) (by decide)
  · exact fun h => absurd (hbinary.isNumber_text_iff.mp h) (by decide)
  · exact fun h => absurd (hsign.isNumber_text_iff.mp h) (by decide)

end ContractCompiler.Token
