import ContractCompiler.Proofs.Token.Printable
import ContractCompiler.Proofs.Token.Quoting
import Mathlib.Data.List.Forall2
import Mathlib.Data.List.TakeWhile
import Mathlib.Data.Nat.Digits.Defs
import Mathlib.Tactic.Ring

/-!
# Escapes by number

A character can be written in a string by its number: as `\xHH`, as `\uXXXX`, between braces with any number of digits that
can be counted, which is fewer than 2³¹, or as the two halves of a pair. `Denotes` says which texts behind a backslash mean
which character, and `Stops` what is taken of a text that means none. The scanner takes an escape for the one if it can, and
else it takes the other, notes a fault and goes on in the string.
-/

namespace ContractCompiler.Token

open Text

namespace Escape

/-! ## Digits -/

/-- The character is the hexadecimal digit for `n`, in lower or upper case. -/
def IsDigit (ch : Char) (n : Nat) : Prop := n < 16 ∧ (ch = Nat.digitChar n ∨ ch = (Nat.digitChar n).toUpper)

instance (ch : Char) (n : Nat) : Decidable (IsDigit ch n) := inferInstanceAs (Decidable (_ ∧ _))

/-- A hexadecimal digit is what has a value as one. -/
theorem isDigit_iff {ch : Char} {n : Nat} : IsDigit ch n ↔ hexValue? ch = some n := by
  constructor
  · rintro ⟨hn, rfl | rfl⟩
    · exact hexValue?_digitChar hn
    · have hupper : ∀ n < 16, hexValue? (Nat.digitChar n).toUpper = some n := by decide
      exact hupper n hn
  · intro h
    have hall : ∀ k < 128, (hexValue? (Char.ofNat k)).all (fun n => decide (IsDigit (Char.ofNat k) n)) = true := by decide
    have hascii : ch.toNat < 128 := by
      have hhex : isHexDigit ch = true := by rw [isHexDigit, h, Option.isSome_some]
      have hprintable := isPrintableAscii_of_isWordPart (Number.isWordPart_of_isHexDigit hhex)
      have := isPrintableAscii_iff.mp hprintable
      omega
    have hdigit := hall ch.toNat hascii
    rw [Char.ofNat_toNat, h] at hdigit
    exact of_decide_eq_true hdigit

/-- A character is a hexadecimal digit if it is the digit for some number. -/
theorem isHexDigit_iff {ch : Char} : isHexDigit ch = true ↔ ∃ n, IsDigit ch n := by
  simp only [isDigit_iff, isHexDigit, Option.isSome_iff_exists]

/-- The characters are hexadecimal digits, and `n` is the number they stand for. -/
def Hexadecimal (ds : List Char) (n : Nat) : Prop := ∃ ns, List.Forall₂ IsDigit ds ns ∧ n = Nat.ofDigits 16 ns.reverse

/-- The number of `n` with the digits `ds` behind it. -/
def extend (n : Nat) (ds : List Char) : Nat := ds.foldl (fun n d => 16 * n + (hexValue? d).getD 0) n

/-- The first of some digits is put behind the number first. -/
theorem extend_cons (n : Nat) (d : Char) (ds : List Char) :
    extend n (d :: ds) = extend (16 * n + (hexValue? d).getD 0) ds := rfl

/-- More digits make no number smaller. -/
theorem le_extend (n : Nat) (ds : List Char) : n ≤ extend n ds := by
  induction ds generalizing n with
  | nil => exact Nat.le_refl n
  | cons d ds ih =>
    have hnext := ih (16 * n + (hexValue? d).getD 0)
    rw [extend_cons]
    omega

/-- A number with digits behind it is the number of all the digits. -/
theorem extend_eq {ds : List Char} {ns : List Nat} (h : List.Forall₂ IsDigit ds ns) (n : Nat) :
    extend n ds = Nat.ofDigits 16 (ns.reverse ++ [n]) := by
  induction h generalizing n with
  | nil => simp [extend]
  | @cons d k ds ns hd _ ih =>
    rw [extend_cons, ih, isDigit_iff.mp hd, List.reverse_cons, List.append_assoc]
    simp only [Nat.ofDigits_append, List.singleton_append, Nat.ofDigits_cons, Nat.ofDigits_nil, Option.getD_some]
    ring

/-- Characters are the digits for some numbers just if all of them are hexadecimal digits. -/
theorem exists_digits_iff {ds : List Char} : (∃ ns, List.Forall₂ IsDigit ds ns) ↔ ∀ d ∈ ds, isHexDigit d = true := by
  induction ds with
  | nil => exact iff_of_true ⟨[], .nil⟩ (by simp)
  | cons d ds ih =>
    rw [List.forall_mem_cons, isHexDigit_iff, ← ih]
    constructor
    · rintro ⟨_, _ | ⟨hd, hds⟩⟩
      exact ⟨⟨_, hd⟩, _, hds⟩
    · rintro ⟨⟨n, hd⟩, ns, hds⟩
      exact ⟨n :: ns, .cons hd hds⟩

/-- Digits have the number that comes of reading them from the left. -/
theorem hexadecimal_iff {ds : List Char} {n : Nat} :
    Hexadecimal ds n ↔ (∀ d ∈ ds, isHexDigit d = true) ∧ n = extend 0 ds := by
  rw [← exists_digits_iff]
  constructor
  · rintro ⟨ns, hns, rfl⟩
    exact ⟨⟨ns, hns⟩, by rw [extend_eq hns]; simp [Nat.ofDigits_append]⟩
  · rintro ⟨⟨ns, hns⟩, rfl⟩
    exact ⟨ns, hns, by rw [extend_eq hns]; simp [Nat.ofDigits_append]⟩

/-! ## The forms of an escape -/

/-- The text behind a backslash means the character. -/
inductive Denotes : List Char → Char → Prop where
  | hex {ds : List Char} {c : Char} : ds.length = 2 → Hexadecimal ds c.toNat → Denotes ('x' :: ds) c
  | code {ds : List Char} {c : Char} : ds.length = 4 → Hexadecimal ds c.toNat → Denotes ('u' :: ds) c
  | braced {ds : List Char} {c : Char} : ds ≠ [] → ds.length < 2 ^ 31 → Hexadecimal ds c.toNat →
      Denotes ('u' :: '\x7b' :: (ds ++ ['\x7d'])) c
  | pair {hs ls : List Char} {c : Char} : 0x10000 ≤ c.toNat →
      hs.length = 4 → Hexadecimal hs (0xD800 + (c.toNat - 0x10000) / 0x400) →
      ls.length = 4 → Hexadecimal ls (0xDC00 + (c.toNat - 0x10000) % 0x400) →
      Denotes ('u' :: (hs ++ '\\' :: 'u' :: ls)) c

/-- The digits at the start of a text, up to a number of them, in front of what is left. -/
structure Leading (count : Nat) (ds rest : List Char) : Prop where
  digits : ∃ n, Hexadecimal ds n
  length_le : ds.length ≤ count
  stops : ds.length < count → ∀ ch n, rest.head? = some ch → ¬ IsDigit ch n

/-- What is taken of a text behind a backslash that means no character, in front of what is left: digits, as long as there
are any and as many as there may be, and the second half of a pair if there is one. Between braces it is digits as long as
their number can be that of a character, and one more if it cannot. -/
inductive Stops : List Char → List Char → Prop where
  | hex {ds rest : List Char} : Leading 2 ds rest → ds.length < 2 → Stops ('x' :: ds) rest
  | code {ds rest : List Char} : Leading 4 ds rest → ds.length < 4 → (ds ++ rest).head? ≠ some '\x7b' →
      Stops ('u' :: ds) rest
  | low {ds rest : List Char} {n : Nat} : ds.length = 4 → Hexadecimal ds n → 0xDC00 ≤ n → n < 0xE000 →
      Stops ('u' :: ds) rest
  | high {ds rest : List Char} {n : Nat} : ds.length = 4 → Hexadecimal ds n → 0xD800 ≤ n → n < 0xDC00 →
      ¬ ['\\', 'u'] <+: rest → Stops ('u' :: ds) rest
  | pair {hs ls rest : List Char} {n : Nat} : hs.length = 4 → Hexadecimal hs n → 0xD800 ≤ n → n < 0xDC00 →
      Leading 4 ls rest → (∀ m, ls.length = 4 → Hexadecimal ls m → ¬ (0xDC00 ≤ m ∧ m < 0xE000)) →
      Stops ('u' :: (hs ++ '\\' :: 'u' :: ls)) rest
  | unclosed {ds rest : List Char} {n : Nat} : Hexadecimal ds n → n ≤ 0x10FFFF → rest.head? ≠ some '\x7d' →
      (∀ ch m, rest.head? = some ch → ¬ IsDigit ch m) → Stops ('u' :: '\x7b' :: ds) rest
  | large {ds rest : List Char} {d : Char} {n m : Nat} : Hexadecimal ds n → n ≤ 0x10FFFF → Hexadecimal (ds ++ [d]) m →
      0x10FFFF < m → Stops ('u' :: '\x7b' :: (ds ++ [d])) rest
  | closed {ds rest : List Char} {n : Nat} : Hexadecimal ds n → ds = [] ∨ (0xD800 ≤ n ∧ n < 0xE000) →
      Stops ('u' :: '\x7b' :: (ds ++ ['\x7d'])) rest

/-! ## Reading digits -/

/-- As many digits are taken as there may be. -/
theorem hex_append_of_length {ds rest : List Char} {n : Nat} (h : Hexadecimal ds n) :
    hex ds.length (ds ++ rest) = (some n, ds, rest) := by
  obtain ⟨hds, rfl⟩ := hexadecimal_iff.mp h
  have htake : ((ds ++ rest).take ds.length).takeWhile isHexDigit = ds := by
    rw [List.take_left]
    exact List.takeWhile_eq_self_iff.mpr hds
  simp only [hex, htake, List.drop_left]
  rfl

/-- Digits are taken as long as there are any, and as many as there may be. -/
theorem hex_cases (count : Nat) (cs : List Char) :
    ∃ ds rest, cs = ds ++ rest ∧ Leading count ds rest ∧ (hex count cs).2 = (ds, rest) ∧
      ((ds.length = count ∧ ∃ n, Hexadecimal ds n ∧ (hex count cs).1 = some n) ∨
        (ds.length < count ∧ (hex count cs).1 = none)) := by
  have happend := hex_append count cs
  have hdigits : ∀ d ∈ (hex count cs).2.1, isHexDigit d = true := List.all_eq_true.mp List.all_takeWhile
  have hlength : (hex count cs).2.1.length ≤ count :=
    ((List.takeWhile_prefix _).length_le).trans (by rw [List.length_take]; exact Nat.min_le_left _ _)
  have hself : ((cs.take count).takeWhile isHexDigit) = (hex count cs).2.1 := rfl
  have hcode : (hex count cs).1 =
      if (hex count cs).2.1.length = count then some (extend 0 (hex count cs).2.1) else none := rfl
  generalize hex count cs = r at *
  obtain ⟨code, ds, rest⟩ := r
  dsimp only at *
  have hnumber : Hexadecimal ds (extend 0 ds) := hexadecimal_iff.mpr ⟨hdigits, rfl⟩
  refine ⟨ds, rest, happend.symm, ⟨⟨_, hnumber⟩, hlength, fun hlt ch n hch hdigit => ?_⟩, rfl, ?_⟩
  · obtain ⟨rest, rfl⟩ := List.head?_eq_some_iff.mp hch
    -- one more digit would have been taken
    obtain ⟨more, hmore⟩ := Nat.exists_eq_add_of_lt hlt
    rw [← happend, hmore, Nat.add_assoc, List.take_length_add_append, List.take_succ_cons,
      List.takeWhile_append_of_pos hdigits, List.takeWhile_cons_of_pos (isHexDigit_iff.mpr ⟨n, hdigit⟩)] at hself
    exact absurd (congrArg List.length hself) (by simp)
  · by_cases hcount : ds.length = count
    · exact .inl ⟨hcount, _, hnumber, by rw [hcode, if_pos hcount]⟩
    · exact .inr ⟨by omega, by rw [hcode, if_neg hcount]⟩

/-- Fewer than 2³¹ digits are counted as many as they are. -/
theorem zero_lt_ofNat_iff {n : Nat} (hn : n < 2 ^ 31) : 0 < Int32.ofNat n ↔ 0 < n := by
  rw [Int32.lt_iff_toInt_lt, Int32.toInt_ofNat_of_lt hn]
  simp

/-- Digits between braces are all taken if their number can be that of a character; it counts if their count is positive. -/
theorem braced_append_of_le {ds : List Char} (hds : ∀ d ∈ ds, isHexDigit d = true) (rest : List Char) {value : Nat}
    (hle : extend value ds ≤ 0x10FFFF) (before : Nat) :
    braced value (.ofNat before) (ds ++ '\x7d' :: rest) =
      (if 0 < Int32.ofNat (before + ds.length) then some (extend value ds) else none, ds ++ ['\x7d'], rest) := by
  induction ds generalizing value before with
  | nil =>
    rw [List.nil_append, braced, if_pos rfl]
    simp [extend]
  | cons d ds ih =>
    obtain ⟨hd, hds⟩ := List.forall_mem_cons.mp hds
    obtain ⟨k, hk⟩ := Option.isSome_iff_exists.mp hd
    have hbrace : d ≠ '\x7d' := by
      rintro rfl
      cases hk
    rw [extend_cons, hk, Option.getD_some] at hle
    have hnext : ¬ 16 * value + k > 0x10FFFF := Nat.not_lt.mpr ((le_extend _ ds).trans hle)
    rw [List.cons_append, braced, if_neg hbrace, hk]
    dsimp only
    have hcount : Int32.ofNat before + 1 = .ofNat (before + 1) := (Int32.ofNat_add before 1).symm
    rw [if_neg hnext, hcount, ih hds hle, extend_cons, hk, List.length_cons, Nat.add_assoc, Nat.add_comm 1]
    rfl

/-- Behind an opening brace there are digits and a closing brace, or digits and then neither, or digits whose number is too
large. -/
theorem braced_cases (cs : List Char) {value : Nat} (hvalue : value ≤ 0x10FFFF) (digits : Int32) :
    ∃ ds rest, (∀ d ∈ ds, isHexDigit d = true) ∧ extend value ds ≤ 0x10FFFF ∧
      (cs = ds ++ '\x7d' :: rest ∨
        (cs = ds ++ rest ∧ rest.head? ≠ some '\x7d' ∧ (∀ ch m, rest.head? = some ch → ¬ IsDigit ch m) ∧
          braced value digits cs = (none, ds, rest)) ∨
        ∃ d, cs = ds ++ d :: rest ∧ isHexDigit d = true ∧ 0x10FFFF < extend value (ds ++ [d]) ∧
          braced value digits cs = (none, ds ++ [d], rest)) := by
  induction cs generalizing value digits with
  | nil => exact ⟨[], [], by simp, hvalue, .inr (.inl ⟨rfl, by simp, by simp, rfl⟩)⟩
  | cons c cs ih =>
    by_cases hbrace : c = '\x7d'
    · subst hbrace
      exact ⟨[], cs, by simp, hvalue, .inl rfl⟩
    rw [braced, if_neg hbrace]
    cases hk : hexValue? c with
    | none =>
      refine ⟨[], c :: cs, by simp, hvalue, .inr (.inl ⟨rfl, by simpa using hbrace, ?_, rfl⟩)⟩
      rintro ch m hch hdigit
      cases hch
      rw [isDigit_iff, hk] at hdigit
      cases hdigit
    | some k =>
      have hc : isHexDigit c = true := by rw [isHexDigit, hk, Option.isSome_some]
      have hextend : ∀ ds, extend value (c :: ds) = extend (16 * value + k) ds := by
        intro ds
        rw [extend_cons, hk, Option.getD_some]
      dsimp only
      by_cases hlarge : 16 * value + k > 0x10FFFF
      · rw [if_pos hlarge]
        refine ⟨[], cs, by simp, hvalue, .inr (.inr ⟨c, rfl, hc, ?_, rfl⟩)⟩
        rwa [List.nil_append, hextend]
      · rw [if_neg hlarge]
        obtain ⟨ds, rest, hds, hle, hcases⟩ := ih (Nat.not_lt.mp hlarge) (digits + 1)
        refine ⟨c :: ds, rest, List.forall_mem_cons.mpr ⟨hc, hds⟩, (hextend ds).symm ▸ hle, ?_⟩
        rcases hcases with rfl | ⟨rfl, hclose, hstop, heq⟩ | ⟨d, rfl, hd, hlt, heq⟩
        · exact .inl rfl
        · exact .inr (.inl ⟨rfl, hclose, hstop, by rw [heq]⟩)
        · refine .inr (.inr ⟨d, rfl, hd, ?_, by rw [heq]; rfl⟩)
          rwa [List.cons_append, hextend]

/-! ## Reading an escape -/

/-- There is a character for every number but those of the halves of pairs. -/
theorem exists_toNat_eq {n : Nat} (h : n ≤ 0x10FFFF) (hhalf : ¬ (0xD800 ≤ n ∧ n < 0xE000)) : ∃ c : Char, c.toNat = n :=
  have hvalid : n.isValidChar := by
    unfold Nat.isValidChar
    omega
  ⟨Char.ofNatAux n hvalid, rfl⟩

/-- The number of a character is in the range of Unicode and no half of a pair. -/
theorem toNat_bounds (c : Char) : c.toNat ≤ 0x10FFFF ∧ ¬ (0xD800 ≤ c.toNat ∧ c.toNat < 0xE000) := by
  have hvalid : c.toNat.isValidChar := c.valid
  unfold Nat.isValidChar at hvalid
  omega

/-- The number of a character means the character. -/
theorem meaningOf_toNat (fault : LexFault) (c : Char) : meaningOf fault (some c.toNat) = .char c := by
  rw [meaningOf, Option.bind_some, scalar?_toNat]

/-- Half of a pair means none. -/
theorem meaningOf_half (fault : LexFault) {n : Nat} (h : 0xD800 ≤ n) (h' : n < 0xE000) :
    meaningOf fault (some n) = .invalid fault := by
  have hinvalid : ¬ n.isValidChar := by
    unfold Nat.isValidChar
    omega
  rw [meaningOf, Option.bind_some, scalar?, dif_neg hinvalid]

/-- A few digits stand for a small number. -/
theorem Hexadecimal.lt_pow {ds : List Char} {n : Nat} (h : Hexadecimal ds n) : n < 16 ^ ds.length := by
  obtain ⟨ns, hns, rfl⟩ := h
  have hlt : ∀ k ∈ ns, k < 16 := by
    induction hns with
    | nil => simp
    | cons hd _ ih => exact List.forall_mem_cons.mpr ⟨hd.1, ih⟩
  have hpow : Nat.ofDigits 16 ns.reverse < 16 ^ ns.reverse.length :=
    Nat.ofDigits_lt_base_pow_length (by decide) fun k hk => hlt k (List.mem_reverse.mp hk)
  rwa [List.length_reverse, ← hns.length_eq] at hpow

/-- Digits stand for one number only. -/
theorem Hexadecimal.unique {ds : List Char} {n m : Nat} (h : Hexadecimal ds n) (h' : Hexadecimal ds m) : n = m :=
  (hexadecimal_iff.mp h).2.trans (hexadecimal_iff.mp h').2.symm

/-- The escapes that are not between braces. -/
theorem unicode_eq {cs ds rest : List Char} {code : Option Nat} (hbrace : cs.head? ≠ some '\x7b')
    (hhex : hex 4 cs = (code, ds, rest)) :
    unicode cs = code.elim (none, ds, rest) fun n =>
      if isHighSurrogate n then ((lowHalf n rest).1, ds ++ (lowHalf n rest).2.1, (lowHalf n rest).2.2)
      else (some n, ds, rest) := by
  cases cs with
  | nil =>
    cases hhex
    rfl
  | cons c cs =>
    have hc : c ≠ '\x7b' := fun heq => hbrace (congrArg some heq)
    rw [unicode, if_neg hc, hhex]
    cases code <;> rfl

/-- Where no second escape follows there is no second half of a pair. -/
theorem lowHalf_eq_none (high : Nat) {cs : List Char} (h : ¬ ['\\', 'u'] <+: cs) : lowHalf high cs = (none, [], cs) := by
  unfold lowHalf
  split
  · exact absurd ⟨_, rfl⟩ h
  · rfl

/-- The first half of a pair is in the lower part of the range of halves. -/
theorem isHighSurrogate_iff {n : Nat} : isHighSurrogate n = true ↔ 0xD800 ≤ n ∧ n < 0xDC00 := by
  simp [isHighSurrogate]

/-- The second half is in the upper part. -/
theorem isLowSurrogate_iff {n : Nat} : isLowSurrogate n = true ↔ 0xDC00 ≤ n ∧ n < 0xE000 := by
  simp [isLowSurrogate]

/-- Digits do not start with a brace. -/
theorem head?_ne_brace {ds : List Char} {n : Nat} (h : Hexadecimal ds n) (hne : ds ≠ []) (rest : List Char) :
    (ds ++ rest).head? ≠ some '\x7b' := by
  obtain ⟨d, ds, rfl⟩ := List.exists_cons_of_ne_nil hne
  rintro heq
  cases heq
  exact absurd ((hexadecimal_iff.mp h).1 _ List.mem_cons_self) (by decide)

/-- Two halves of a pair are read as the character with the code of the pair. -/
theorem read_pair {hs ls : List Char} {high low : Nat} {c : Char} (hlength : hs.length = 4) (hhs : Hexadecimal hs high)
    (hhigh : 0xD800 ≤ high) (hhigh' : high < 0xDC00) (hlength' : ls.length = 4) (hls : Hexadecimal ls low)
    (hlow : 0xDC00 ≤ low) (hlow' : low < 0xE000) (hcode : pairCode high low = c.toNat) (rest : List Char) :
    read ('u' :: (hs ++ '\\' :: 'u' :: ls) ++ rest) = ⟨.char c, 'u' :: (hs ++ '\\' :: 'u' :: ls), rest⟩ := by
  have hhex : ∀ more, hex 4 (hs ++ more) = (some high, hs, more) := fun more => hlength ▸ hex_append_of_length hhs
  have hhex' : hex 4 (ls ++ rest) = (some low, ls, rest) := hlength' ▸ hex_append_of_length hls
  have hne : hs ≠ [] := by
    rintro rfl
    cases hlength
  rw [List.cons_append, List.append_assoc, List.cons_append, List.cons_append, read]
  simp only [unicode_eq (head?_ne_brace hhs hne _) (hhex _), Option.elim_some, if_pos (isHighSurrogate_iff.mpr ⟨hhigh, hhigh'⟩),
    lowHalf, hhex', Option.bind_some, if_pos (isLowSurrogate_iff.mpr ⟨hlow, hlow'⟩), hcode, meaningOf_toNat]

/-- A text that means a character is read as that character. -/
theorem read_of_denotes {text : List Char} {c : Char} (h : Denotes text c) (rest : List Char) :
    read (text ++ rest) = ⟨.char c, text, rest⟩ := by
  cases h with
  | @hex ds _ hlength hds =>
    have hhex : hex 2 (ds ++ rest) = (some c.toNat, ds, rest) := hlength ▸ hex_append_of_length hds
    rw [List.cons_append, read]
    simp only [hhex, meaningOf_toNat]
  | @code ds _ hlength hds =>
    have hhex : hex 4 (ds ++ rest) = (some c.toNat, ds, rest) := hlength ▸ hex_append_of_length hds
    have hne : ds ≠ [] := by
      rintro rfl
      cases hlength
    have hhigh : ¬ isHighSurrogate c.toNat = true := by
      rw [isHighSurrogate_iff]
      have := toNat_bounds c
      omega
    rw [List.cons_append, read]
    simp only [unicode_eq (head?_ne_brace hds hne rest) hhex, Option.elim_some, if_neg hhigh, meaningOf_toNat]
  | @braced ds _ hne hshort hds =>
    obtain ⟨hdigits, heq⟩ := hexadecimal_iff.mp hds
    have hle : extend 0 ds ≤ 0x10FFFF := heq ▸ (toNat_bounds c).1
    have hbraced : braced 0 0 (ds ++ '\x7d' :: rest) = _ := braced_append_of_le hdigits rest hle 0
    have hcounted : 0 < Int32.ofNat ds.length := (zero_lt_ofNat_iff hshort).mpr (List.length_pos_iff.mpr hne)
    rw [Nat.zero_add, if_pos hcounted, ← heq] at hbraced
    rw [List.cons_append, List.cons_append, List.append_assoc, List.singleton_append, read]
    simp only [unicode, if_pos, hbraced, meaningOf_toNat]
  | @pair hs ls _ hlarge hlength hhs hlength' hls =>
    have hbounds := (toNat_bounds c).1
    refine read_pair hlength hhs (by omega) (by omega) hlength' hls (by omega) (by omega) ?_ rest
    unfold pairCode
    omega

/-- The text starts with an escape that means a character, or it is read as a fault and nothing more is taken of it than can
be. -/
def Resolved (fault : LexFault) (cs : List Char) : Prop :=
  (∃ text c, Denotes text c ∧ text <+: cs) ∨
    ∃ text rest, cs = text ++ rest ∧ Stops text rest ∧ read cs = ⟨.invalid fault, text, rest⟩

/-- An escape of two hexadecimal digits means a character or is a fault. -/
theorem resolved_hex (cs : List Char) : Resolved .invalidHexEscape ('x' :: cs) := by
  obtain ⟨ds, rest, rfl, hleading, hrest, hcode⟩ := hex_cases 2 cs
  rcases hcode with ⟨hlength, n, hn, -⟩ | ⟨hlength, hnone⟩
  · have hlt := hn.lt_pow
    rw [hlength] at hlt
    obtain ⟨c, rfl⟩ := exists_toNat_eq (show n ≤ 0x10FFFF by omega) (by omega)
    exact .inl ⟨'x' :: ds, c, .hex hlength hn, List.prefix_append _ rest⟩
  · refine .inr ⟨'x' :: ds, rest, rfl, .hex hleading hlength, ?_⟩
    rw [read]
    simp only [hnone, hrest]
    rfl

/-- Wherever digits follow the opening brace of an escape, they can be counted. -/
def Countable (cs : List Char) : Prop :=
  ∀ ds n, 'u' :: '\x7b' :: ds <+: cs → Hexadecimal ds n → ds.length < 2 ^ 31

/-- The digits between braces, or as many as are taken. -/
theorem resolved_braced (cs : List Char) (hcount : Countable ('u' :: '\x7b' :: cs)) :
    Resolved .invalidUnicodeEscape ('u' :: '\x7b' :: cs) := by
  obtain ⟨ds, rest, hds, hle, hcases⟩ := braced_cases cs (Nat.zero_le 0x10FFFF) 0
  have hnumber : Hexadecimal ds (extend 0 ds) := hexadecimal_iff.mpr ⟨hds, rfl⟩
  have hread : ∀ {code : Option Nat} {taken rest : List Char}, braced 0 0 cs = (code, taken, rest) →
      meaningOf .invalidUnicodeEscape code = .invalid .invalidUnicodeEscape →
      read ('u' :: '\x7b' :: cs) = ⟨.invalid .invalidUnicodeEscape, 'u' :: '\x7b' :: taken, rest⟩ := by
    intro code taken rest hbraced hmeaning
    rw [read]
    simp only [unicode, if_pos, hbraced, hmeaning]
  rcases hcases with rfl | ⟨rfl, hclose, hstop, hbraced⟩ | ⟨d, rfl, hd, hlarge, hbraced⟩
  · have hbraced : braced 0 0 (ds ++ '\x7d' :: rest) = _ := braced_append_of_le hds rest hle 0
    have hshort : ds.length < 2 ^ 31 := hcount ds _ (by simp) hnumber
    by_cases hne : ds = []
    · subst hne
      exact .inr ⟨['u', '\x7b', '\x7d'], rest, rfl, .closed hnumber (.inl rfl), hread hbraced rfl⟩
    have hcounted : 0 < Int32.ofNat ds.length := (zero_lt_ofNat_iff hshort).mpr (List.length_pos_iff.mpr hne)
    rw [Nat.zero_add, if_pos hcounted] at hbraced
    by_cases hhalf : 0xD800 ≤ extend 0 ds ∧ extend 0 ds < 0xE000
    · refine .inr ⟨'u' :: '\x7b' :: (ds ++ ['\x7d']), rest, by simp, .closed hnumber (.inr hhalf), ?_⟩
      exact hread hbraced (meaningOf_half _ hhalf.1 hhalf.2)
    · obtain ⟨c, hc⟩ := exists_toNat_eq hle hhalf
      exact .inl ⟨_, c, .braced hne hshort (hc ▸ hnumber), ⟨rest, by simp⟩⟩
  · exact .inr ⟨'u' :: '\x7b' :: ds, rest, rfl, .unclosed hnumber hle hclose hstop, hread hbraced rfl⟩
  · have hmore : Hexadecimal (ds ++ [d]) (extend 0 (ds ++ [d])) := by
      refine hexadecimal_iff.mpr ⟨fun ch hch => ?_, rfl⟩
      rcases List.mem_append.mp hch with hch | hch
      · exact hds ch hch
      · rwa [List.mem_singleton.mp hch]
    exact .inr ⟨'u' :: '\x7b' :: (ds ++ [d]), rest, by simp, .large hnumber hle hmore hlarge, hread hbraced rfl⟩

/-- Behind the first half of a pair. -/
theorem resolved_pair {hs : List Char} {high : Nat} (hlength : hs.length = 4) (hhs : Hexadecimal hs high)
    (hhigh : 0xD800 ≤ high) (hhigh' : high < 0xDC00) (cs : List Char) : Resolved .invalidUnicodeEscape ('u' :: (hs ++ cs)) := by
  have hne : hs ≠ [] := by
    rintro rfl
    cases hlength
  have hhex : hex 4 (hs ++ cs) = (some high, hs, cs) := hlength ▸ hex_append_of_length hhs
  have hunicode := unicode_eq (head?_ne_brace hhs hne cs) hhex
  rw [Option.elim_some, if_pos (isHighSurrogate_iff.mpr ⟨hhigh, hhigh'⟩)] at hunicode
  have hread : ∀ {taken rest : List Char}, lowHalf high cs = (none, taken, rest) →
      read ('u' :: (hs ++ cs)) = ⟨.invalid .invalidUnicodeEscape, 'u' :: (hs ++ taken), rest⟩ := by
    intro taken rest hlow
    rw [read]
    simp only [hunicode, hlow]
    rfl
  by_cases hprefix : ['\\', 'u'] <+: cs
  · obtain ⟨cs, rfl⟩ := hprefix
    obtain ⟨ls, rest, rfl, hleading, hrest, hcode⟩ := hex_cases 4 cs
    -- all that is left to see is whether the digits of the second half are those of one
    have hstops : (∀ m, ls.length = 4 → Hexadecimal ls m → ¬ (0xDC00 ≤ m ∧ m < 0xE000)) →
        (lowHalf high ('\\' :: 'u' :: (ls ++ rest))).1 = none →
        Resolved .invalidUnicodeEscape ('u' :: (hs ++ (['\\', 'u'] ++ (ls ++ rest)))) := by
      intro hnot hnone
      refine .inr ⟨'u' :: (hs ++ '\\' :: 'u' :: ls), rest, by simp, .pair hlength hhs hhigh hhigh' hleading hnot, ?_⟩
      refine hread (Prod.ext hnone ?_)
      simp only [List.cons_append, List.nil_append, lowHalf, hrest]
    rcases hcode with ⟨hlength', low, hls, hcode⟩ | ⟨hlength', hnone⟩
    · by_cases hlow : 0xDC00 ≤ low ∧ low < 0xE000
      · obtain ⟨c, hc⟩ := exists_toNat_eq (n := pairCode high low) (by unfold pairCode; omega) (by unfold pairCode; omega)
        unfold pairCode at hc
        have hhigh : 0xD800 + (c.toNat - 0x10000) / 0x400 = high := by omega
        have hlow : 0xDC00 + (c.toNat - 0x10000) % 0x400 = low := by omega
        refine .inl ⟨_, c, .pair (by omega) hlength (hhigh ▸ hhs) hlength' (hlow ▸ hls), ⟨rest, by simp⟩⟩
      · refine hstops (fun m _ hm => hm.unique hls ▸ hlow) ?_
        simp only [lowHalf, hcode, Option.bind_some, if_neg (isLowSurrogate_iff.not.mpr hlow)]
    · refine hstops (fun m hm => absurd hm (by omega)) ?_
      simp only [lowHalf, hnone, Option.bind_none]
  · refine .inr ⟨'u' :: hs, cs, rfl, .high hlength hhs hhigh hhigh' hprefix, ?_⟩
    simpa using hread (lowHalf_eq_none high hprefix)

/-- So does one of four digits, of a pair, or of digits between braces. -/
theorem resolved_unicode (cs : List Char) (hcount : Countable ('u' :: cs)) :
    Resolved .invalidUnicodeEscape ('u' :: cs) := by
  by_cases hbrace : cs.head? = some '\x7b'
  · obtain ⟨cs, rfl⟩ := List.head?_eq_some_iff.mp hbrace
    exact resolved_braced cs hcount
  obtain ⟨ds, rest, rfl, hleading, hrest, hcode⟩ := hex_cases 4 cs
  rcases hcode with ⟨hlength, n, hn, -⟩ | ⟨hlength, hnone⟩
  · have hlt := hn.lt_pow
    rw [hlength] at hlt
    have hhex : hex 4 (ds ++ rest) = (some n, ds, rest) := hlength ▸ hex_append_of_length hn
    by_cases hhigh : 0xD800 ≤ n ∧ n < 0xDC00
    · exact resolved_pair hlength hn hhigh.1 hhigh.2 rest
    have hunicode := unicode_eq hbrace hhex
    rw [Option.elim_some, if_neg (isHighSurrogate_iff.not.mpr hhigh)] at hunicode
    by_cases hlow : 0xDC00 ≤ n ∧ n < 0xE000
    · refine .inr ⟨'u' :: ds, rest, rfl, .low hlength hn hlow.1 hlow.2, ?_⟩
      rw [read]
      simp only [hunicode, meaningOf_half _ (show 0xD800 ≤ n by omega) hlow.2]
    · obtain ⟨c, rfl⟩ := exists_toNat_eq (show n ≤ 0x10FFFF by omega) (by omega)
      exact .inl ⟨'u' :: ds, c, .code hlength hn, List.prefix_append _ rest⟩
  · have hhex : hex 4 (ds ++ rest) = (none, ds, rest) := Prod.ext hnone hrest
    refine .inr ⟨'u' :: ds, rest, rfl, .code hleading hlength hbrace, ?_⟩
    rw [read]
    simp only [unicode_eq hbrace hhex]
    rfl

/-- What is taken of an escape without a meaning has no quote and no line break. -/
theorem Stops.forall_ne {text rest : List Char} (h : Stops text rest) :
    ∀ ch ∈ text, ch ≠ '\x22' ∧ ch ≠ '\x27' ∧ ch ≠ '\n' := by
  have hdigits : ∀ {ds : List Char}, (∃ n, Hexadecimal ds n) → ∀ d ∈ ds, d ≠ '\x22' ∧ d ≠ '\x27' ∧ d ≠ '\n' := by
    rintro ds ⟨n, hds⟩ d hd
    have hhex := (hexadecimal_iff.mp hds).1 d hd
    refine ⟨?_, ?_, ?_⟩ <;> rintro rfl <;> exact absurd hhex (by decide)
  cases h with
  | hex hds | code hds => exact List.forall_mem_cons.mpr ⟨by decide, hdigits hds.digits⟩
  | low _ hds | high _ hds => exact List.forall_mem_cons.mpr ⟨by decide, hdigits ⟨_, hds⟩⟩
  | pair _ hhs _ _ hls =>
    simp only [List.forall_mem_cons, List.forall_mem_append]
    exact ⟨by decide, hdigits ⟨_, hhs⟩, by decide, by decide, hdigits hls.digits⟩
  | unclosed hds =>
    simp only [List.forall_mem_cons]
    exact ⟨by decide, by decide, hdigits ⟨_, hds⟩⟩
  | large _ _ hds =>
    simp only [List.forall_mem_cons]
    exact ⟨by decide, by decide, hdigits ⟨_, hds⟩⟩
  | closed hds =>
    simp only [List.forall_mem_cons, List.forall_mem_append]
    exact ⟨by decide, by decide, hdigits ⟨_, hds⟩, by decide, by simp⟩

end Escape

/-! ## Strings -/

/-- In a string that the quote opens, the text stands for the character. -/
inductive Stands (quote : Char) : List Char → Char → Prop where
  | plain {c : Char} : c ≠ '\n' → c ≠ quote → c ≠ '\\' → Stands quote [c] c
  | escape {text : List Char} {c : Char} : Escape.Denotes text c → Stands quote ('\\' :: text) c

/-- What comes of a string when `text`, which stands for nothing, is put in front of it with a fault. -/
def Quoted.afterFault (r : Quoted) (fault : LexError) (text : List Char) : Quoted :=
  ⟨r.value, text ++ r.taken, r.rest, fault :: r.errors, r.closed⟩

/-- A fault in a string stands for nothing, and the string goes on behind it. -/
theorem quoted_fault {quote : Char} {cs : List Char} (hquote : quote ≠ '\\') {fault : LexFault} (taken : List Char)
    (h : Escape.read (taken ++ cs) = ⟨.invalid fault, taken, cs⟩) (offset : Nat) :
    quoted quote offset ('\\' :: (taken ++ cs)) =
      (quoted quote (offset + utf8Length ('\\' :: taken)) cs).afterFault
        ⟨fault, ⟨offset, offset + utf8Length ('\\' :: taken)⟩⟩ ('\\' :: taken) := by
  rw [quoted, if_neg (by decide), if_neg hquote.symm, if_pos rfl]
  simp only [h, offset_behind_escape]
  rfl

/-- Escapes by number mean the character with that number. Wherever one stands in a string, it contributes its character and
no fault, and the string goes on behind it. If the text behind a backslash and `x` or `u` has no such meaning, and no more
digits stand between braces than can be counted, nothing comes of what is taken of it but one fault, which starts at the
backslash, and the same string goes on behind that, since no quote and no line break is taken. So a string of texts that stand
for characters is one token with these characters and without a fault. -/
theorem escapes_mean_their_numbers {quote : Char} (hquote : quote = '\x22' ∨ quote = '\x27') (offset : Nat) :
    (∀ text c rest, Escape.Denotes text c →
      quoted quote offset ('\\' :: (text ++ rest)) =
        (quoted quote (offset + utf8Length ('\\' :: text)) rest).after c ('\\' :: text)) ∧
    (∀ marker fault cs, (marker, fault) ∈ [('x', LexFault.invalidHexEscape), ('u', .invalidUnicodeEscape)] →
      (∀ text c, Escape.Denotes text c → ¬ text <+: marker :: cs) → Escape.Countable (marker :: cs) →
      ∃ text rest, marker :: cs = text ++ rest ∧ Escape.Stops text rest ∧ quote ∉ text ∧ '\n' ∉ text ∧
        quoted quote offset ('\\' :: marker :: cs) =
          (quoted quote (offset + utf8Length ('\\' :: text)) rest).afterFault
            ⟨fault, ⟨offset, offset + utf8Length ('\\' :: text)⟩⟩ ('\\' :: text)) ∧
    ∀ (pieces : List (List Char × Char)) (rest : List Char), (∀ p ∈ pieces, Stands quote p.1 p.2) →
      lexeme offset quote (pieces.flatMap Prod.fst ++ quote :: rest) =
        ⟨.string (String.ofList (pieces.map Prod.snd)), quote :: (pieces.flatMap Prod.fst ++ [quote]), rest, []⟩ := by
  have hslash : quote ≠ '\\' := by
    rcases hquote with rfl | rfl <;> decide
  have hescape : ∀ {text : List Char} {c : Char}, Escape.Denotes text c → ∀ offset rest,
      quoted quote offset ('\\' :: (text ++ rest)) =
        (quoted quote (offset + utf8Length ('\\' :: text)) rest).after c ('\\' :: text) :=
    fun htext offset rest => quoted_escape hslash _ (Escape.read_of_denotes htext rest) offset
  refine ⟨fun text c rest htext => hescape htext offset rest, ?_, ?_⟩
  · intro marker fault cs hmarker hnone hcount
    have hresolved : Escape.Resolved fault (marker :: cs) := by
      simp only [List.mem_cons, Prod.mk.injEq, List.not_mem_nil, or_false] at hmarker
      rcases hmarker with ⟨rfl, rfl⟩ | ⟨rfl, rfl⟩
      · exact Escape.resolved_hex cs
      · exact Escape.resolved_unicode cs hcount
    rcases hresolved with ⟨text, c, htext, hprefix⟩ | ⟨text, rest, heq, hstops, hread⟩
    · exact absurd hprefix (hnone text c htext)
    have hne := hstops.forall_ne
    refine ⟨text, rest, heq, hstops, fun hmem => ?_, fun hmem => (hne _ hmem).2.2 rfl, ?_⟩
    · rcases hquote with rfl | rfl
      · exact (hne _ hmem).1 rfl
      · exact (hne _ hmem).2.1 rfl
    · rw [heq] at hread ⊢
      exact quoted_fault hslash text hread offset
  · intro pieces rest hpieces
    refine lexeme_pieces hquote ?_ rest offset
    rintro ⟨text, c⟩ hp offset cs
    have hstands : Stands quote text c := hpieces _ hp
    cases hstands with
    | plain hline hplain hback => exact quoted_plain hline hplain hback offset cs
    | escape htext => exact hescape htext offset cs

/-- Both halves of a pair, `D83D` and `DE00`, and then the same without the last digit of the second, which ends at the closing
quote. -/
theorem halves_decoded :
    Escape.Denotes "uD83D\\uDE00".toList '😀' ∧
      quoted '\x22' 1 ('\\' :: ("uD83D\\uDE00".toList ++ ['\x22'])) =
        ⟨['😀'], "\\uD83D\\uDE00\x22".toList, [], [], true⟩ ∧
      ∃ text rest, "uD83D\\uDE0\x22".toList = text ++ rest ∧ Escape.Stops text rest ∧ '\x22' ∉ text ∧ '\n' ∉ text ∧
        quoted '\x22' 1 ('\\' :: "uD83D\\uDE0\x22".toList) =
          (quoted '\x22' (1 + utf8Length ('\\' :: text)) rest).afterFault
            ⟨.invalidUnicodeEscape, ⟨1, 1 + utf8Length ('\\' :: text)⟩⟩ ('\\' :: text) := by
  obtain ⟨hdecoded, hfault, -⟩ := escapes_mean_their_numbers (.inl rfl : '\x22' = '\x22' ∨ '\x22' = '\x27') 1
  have hhigh : Escape.Hexadecimal ['D', '8', '3', 'D'] (0xD800 + ('😀'.toNat - 0x10000) / 0x400) :=
    Escape.hexadecimal_iff.mpr ⟨by simp [isHexDigit, hexValue?], by decide⟩
  have hlow : Escape.Hexadecimal ['D', 'E', '0', '0'] (0xDC00 + ('😀'.toNat - 0x10000) % 0x400) :=
    Escape.hexadecimal_iff.mpr ⟨by simp [isHexDigit, hexValue?], by decide⟩
  have hpair : Escape.Denotes "uD83D\\uDE00".toList '😀' := .pair (by decide) rfl hhigh rfl hlow
  refine ⟨hpair, ?_, ?_⟩
  · rw [hdecoded _ _ _ hpair, quoted, if_neg (by decide), if_pos rfl]
    rfl
  · refine hfault 'u' .invalidUnicodeEscape "D83D\\uDE0\x22".toList (by simp) ?_ fun ds n hbrace => by simp at hbrace
    rintro text c htext ⟨rest, hrest⟩
    have hinvalid : (Escape.read ('u' :: "D83D\\uDE0\x22".toList)).meaning = .invalid .invalidUnicodeEscape := by decide
    rw [← hrest, Escape.read_of_denotes htext rest] at hinvalid
    cases hinvalid

/-- A number is not changed by zeros in front of it. -/
theorem Escape.extend_zeros (n : Nat) : extend 0 (List.replicate n '0') = 0 := by
  induction n with
  | zero => rfl
  | succ n ih => rw [List.replicate_succ, extend_cons]; exact ih

/-- Zeros between braces mean nothing if their count is not positive, though their number is that of a character. -/
theorem Escape.read_zeros {n : Nat} (hn : ¬ 0 < Int32.ofNat n) (rest : List Char) :
    read ('u' :: '\x7b' :: (List.replicate n '0' ++ ['\x7d']) ++ rest) =
      ⟨.invalid .invalidUnicodeEscape, 'u' :: '\x7b' :: (List.replicate n '0' ++ ['\x7d']), rest⟩ := by
  have hzeros : ∀ d ∈ List.replicate n '0', isHexDigit d = true := by
    intro d hd
    rw [List.eq_of_mem_replicate hd]
    rfl
  have hle : extend 0 (List.replicate n '0') ≤ 0x10FFFF := (extend_zeros n).symm ▸ Nat.zero_le _
  have hbraced : braced 0 0 (List.replicate n '0' ++ '\x7d' :: rest) = _ := braced_append_of_le hzeros rest hle 0
  rw [Nat.zero_add, List.length_replicate, if_neg hn] at hbraced
  rw [List.cons_append, List.cons_append, List.append_assoc, List.singleton_append, read]
  simp only [unicode, if_pos, hbraced]
  rfl

/-- A string of nothing but such zeros is empty, with one fault. -/
theorem quoted_zeros {n : Nat} (hn : ¬ 0 < Int32.ofNat n) (offset : Nat) :
    let text := 'u' :: '\x7b' :: (List.replicate n '0' ++ ['\x7d'])
    quoted '\x22' offset ('\\' :: (text ++ ['\x22'])) =
      ⟨[], '\\' :: (text ++ ['\x22']), [], [⟨.invalidUnicodeEscape, ⟨offset, offset + utf8Length ('\\' :: text)⟩⟩], true⟩ := by
  intro text
  rw [quoted_fault (by decide) text (Escape.read_zeros hn ['\x22']), quoted, if_neg (by decide), if_pos rfl]
  rfl

/-- Of `\u` and a number between braces that is no character's, the scanner takes the digits up to the one that makes it too
large; the closing brace is one more character of the string. And 2³¹ zeros between braces are not counted, so that nothing but
a fault comes of the character they stand for. -/
theorem largeNumber_and_manyZeros_misread :
    quoted '\x22' 1 "\\u\x7b110000\x7d\x22".toList =
        ⟨['\x7d'], "\\u\x7b110000\x7d\x22".toList, [], [⟨.invalidUnicodeEscape, ⟨1, 10⟩⟩], true⟩ ∧
      Escape.Hexadecimal (List.replicate (2 ^ 31) '0') '\x00'.toNat ∧
      let text := 'u' :: '\x7b' :: (List.replicate (2 ^ 31) '0' ++ ['\x7d'])
      quoted '\x22' 1 ('\\' :: (text ++ ['\x22'])) =
        ⟨[], '\\' :: (text ++ ['\x22']), [], [⟨.invalidUnicodeEscape, ⟨1, 1 + utf8Length ('\\' :: text)⟩⟩], true⟩ := by
  have hlarge : Escape.read ("u\x7b110000".toList ++ "\x7d\x22".toList) =
      ⟨.invalid .invalidUnicodeEscape, "u\x7b110000".toList, "\x7d\x22".toList⟩ := rfl
  refine ⟨?_, Escape.hexadecimal_iff.mpr ⟨fun d hd => ?_, (Escape.extend_zeros _).symm⟩, quoted_zeros (by decide) 1⟩
  · have hslash : '\x22' ≠ '\\' := by decide
    refine (quoted_fault hslash _ hlarge 1).trans ?_
    rw [show "\x7d\x22".toList = ['\x7d', '\x22'] from rfl, quoted_plain (by decide) (by decide) (by decide), quoted,
      if_neg (by decide), if_pos rfl]
    rfl
  · rw [List.eq_of_mem_replicate hd]
    rfl

end ContractCompiler.Token
