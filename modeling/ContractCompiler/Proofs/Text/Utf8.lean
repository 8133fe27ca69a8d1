import ContractCompiler.Text.Utf8
import Mathlib.Tactic.Common

/-!
# The bytes of a text stand for it

Reading the bytes of a text gives its characters again, so decoding them gives the text, and no replacement character.
-/

namespace ContractCompiler.Text

/-- A number below 256 is kept in a byte. -/
theorem toNat_byte {n : Nat} (h : n < 256) : (UInt8.ofNat n).toNat = n := by
  rw [UInt8.toNat_ofNat', Nat.mod_eq_of_lt h]

/-- The shape of a character by the number of its first byte. -/
theorem leadShape?_eq {b : UInt8} {n : Nat} (h : b.toNat = n) :
    leadShape? b =
      if n ≤ 0x7F then some (0, n, 0x80, 0xBF)
      else if 0xC2 ≤ n ∧ n ≤ 0xDF then some (1, n - 0xC0, 0x80, 0xBF)
      else if n = 0xE0 then some (2, 0, 0xA0, 0xBF)
      else if n = 0xED then some (2, 0x0D, 0x80, 0x9F)
      else if 0xE1 ≤ n ∧ n ≤ 0xEF then some (2, n - 0xE0, 0x80, 0xBF)
      else if n = 0xF0 then some (3, 0, 0x90, 0xBF)
      else if 0xF1 ≤ n ∧ n ≤ 0xF3 then some (3, n - 0xF0, 0x80, 0xBF)
      else if n = 0xF4 then some (3, 4, 0x80, 0x8F)
      else none := by
  subst h
  simp only [leadShape?, UInt8.le_iff_toNat_le, ← UInt8.toNat_inj, Bool.and_eq_true, decide_eq_true_eq]
  rfl

/-- The first of two bytes gives the bits above those of the other. -/
theorem leads_two {v : Nat} (h : 0x7F < v) (h' : v ≤ 0x7FF) :
    ∃ lo hi, leadShape? (UInt8.ofNat (v / 64 % 32 + 192)) = some (1, v / 64, lo, hi) ∧
      lo.toNat ≤ v % 64 + 128 ∧ v % 64 + 128 ≤ hi.toNat := by
  have hbyte := toNat_byte (show v / 64 % 32 + 192 < 256 by omega)
  refine ⟨0x80, 0xBF, ?_, by simp, by simp; omega⟩
  rw [leadShape?_eq hbyte, if_neg (by omega), if_pos (by omega), show v / 64 % 32 + 192 - 0xC0 = v / 64 by omega]

/-- The first of three bytes does so too, and keeps surrogates out by the range of the second one. -/
theorem leads_three {v : Nat} (h : 0x7FF < v) (h' : v ≤ 0xFFFF) (hvalid : v < 0xD800 ∨ 0xDFFF < v) :
    ∃ lo hi, leadShape? (UInt8.ofNat (v / 4096 % 16 + 224)) = some (2, v / 4096, lo, hi) ∧
      lo.toNat ≤ v / 64 % 64 + 128 ∧ v / 64 % 64 + 128 ≤ hi.toNat := by
  have hbyte := toNat_byte (show v / 4096 % 16 + 224 < 256 by omega)
  rw [leadShape?_eq hbyte, if_neg (by omega), if_neg (by omega)]
  by_cases hfirst : v / 4096 = 0
  · rw [hfirst]
    exact ⟨0xA0, 0xBF, rfl, by simp; omega, by simp; omega⟩
  rw [if_neg (by omega)]
  by_cases hsurrogates : v / 4096 = 0x0D
  · rw [hsurrogates]
    exact ⟨0x80, 0x9F, rfl, by simp, by simp; omega⟩
  rw [if_neg (by omega), if_pos (by omega), show v / 4096 % 16 + 224 - 0xE0 = v / 4096 by omega]
  exact ⟨0x80, 0xBF, rfl, by simp, by simp; omega⟩

/-- The first of four bytes keeps out what is too large. -/
theorem leads_four {v : Nat} (h : 0xFFFF < v) (h' : v < 0x110000) :
    ∃ lo hi, leadShape? (UInt8.ofNat (v / 262144 % 8 + 240)) = some (3, v / 262144, lo, hi) ∧
      lo.toNat ≤ v / 4096 % 64 + 128 ∧ v / 4096 % 64 + 128 ≤ hi.toNat := by
  have hbyte := toNat_byte (show v / 262144 % 8 + 240 < 256 by omega)
  rw [leadShape?_eq hbyte, if_neg (by omega), if_neg (by omega), if_neg (by omega), if_neg (by omega),
    if_neg (by omega)]
  by_cases hfirst : v / 262144 = 0
  · rw [hfirst]
    exact ⟨0x90, 0xBF, rfl, by simp; omega, by simp; omega⟩
  rw [if_neg (by omega)]
  by_cases hlast : v / 262144 = 4
  · rw [hlast]
    exact ⟨0x80, 0x8F, rfl, by simp, by simp; omega⟩
  rw [if_pos (by omega), show v / 262144 % 8 + 240 - 0xF0 = v / 262144 by omega]
  exact ⟨0x80, 0xBF, rfl, by simp, by simp; omega⟩

/-- A byte that goes on with a character adds its six bits. -/
theorem continuations_cons {n code low : Nat} {lo hi : UInt8} (hlow : low < 64) (hlo : lo.toNat ≤ low + 128)
    (hhi : low + 128 ≤ hi.toNat) (bs : List UInt8) :
    continuations (n + 1) code lo hi (UInt8.ofNat (low + 128) :: bs) =
      continuations n (code * 64 + low) 0x80 0xBF bs := by
  have hbyte := toNat_byte (show low + 128 < 256 by omega)
  rw [continuations, if_pos]
  · rw [hbyte, Nat.add_sub_cancel]
  · rw [Bool.and_eq_true, decide_eq_true_eq, decide_eq_true_eq, UInt8.le_iff_toNat_le, UInt8.le_iff_toNat_le, hbyte]
    exact ⟨hlo, hhi⟩

/-- The bytes after the second one may be any that go on with a character. -/
theorem continuations_cons_any {n code low : Nat} (hlow : low < 64) (bs : List UInt8) :
    continuations (n + 1) code 0x80 0xBF (UInt8.ofNat (low + 128) :: bs) =
      continuations n (code * 64 + low) 0x80 0xBF bs :=
  continuations_cons hlow (by simp) (by simp; omega) bs

/-- Reading a character from its own bytes gives it, and leaves what follows them. -/
theorem decodeChar_utf8EncodeChar (c : Char) (rest : List UInt8) :
    ∃ b bs, String.utf8EncodeChar c = b :: bs ∧ decodeChar b (bs ++ rest) = (some c, rest) := by
  have hvalid : c.val.toNat < 0xD800 ∨ 0xDFFF < c.val.toNat ∧ c.val.toNat < 0x110000 := c.valid
  have hchar : ∀ n, n = c.val.toNat → Char.ofNat n = c := by
    rintro _ rfl
    exact Char.ofNat_toNat c
  unfold String.utf8EncodeChar
  generalize c.val.toNat = v at hvalid hchar
  dsimp only
  split
  · have hbyte := toNat_byte (show v < 256 by omega)
    refine ⟨_, _, rfl, ?_⟩
    simp only [decodeChar, leadShape?_eq hbyte, if_pos ‹v ≤ 127›, continuations, Option.map_some, hchar v rfl]
    rfl
  split
  · obtain ⟨lo, hi, hlead, hlo, hhi⟩ := leads_two (by omega) ‹v ≤ 2047›
    refine ⟨_, _, rfl, ?_⟩
    simp only [decodeChar, hlead, List.cons_append, List.nil_append]
    rw [continuations_cons (by omega) hlo hhi, continuations, Option.map_some, hchar _ (by omega)]
  split
  · obtain ⟨lo, hi, hlead, hlo, hhi⟩ := leads_three (by omega) ‹v ≤ 65535› (by omega)
    refine ⟨_, _, rfl, ?_⟩
    simp only [decodeChar, hlead, List.cons_append, List.nil_append]
    rw [continuations_cons (by omega) hlo hhi, continuations_cons_any (by omega), continuations, Option.map_some,
      hchar _ (by omega)]
  · obtain ⟨lo, hi, hlead, hlo, hhi⟩ := leads_four (by omega) (show v < 0x110000 by omega)
    refine ⟨_, _, rfl, ?_⟩
    simp only [decodeChar, hlead, List.cons_append, List.nil_append]
    rw [continuations_cons (by omega) hlo hhi, continuations_cons_any (by omega), continuations_cons_any (by omega),
      continuations, Option.map_some, hchar _ (by omega)]

/-- Decoding goes on behind the bytes of a text as if it started there. -/
theorem decodeAll_append (cs : List Char) (bs : List UInt8) :
    decodeAll (cs.flatMap String.utf8EncodeChar ++ bs) = cs.map some ++ decodeAll bs := by
  induction cs with
  | nil => rfl
  | cons c cs ih =>
    obtain ⟨b, tail, hbytes, hchar⟩ := decodeChar_utf8EncodeChar c (cs.flatMap String.utf8EncodeChar ++ bs)
    rw [List.flatMap_cons, List.append_assoc, hbytes, List.cons_append, decodeAll, hchar, ih, List.map_cons,
      List.cons_append]

/-- The bytes of a text are decoded to its characters. -/
theorem decodeAll_utf8Bytes (s : String) : decodeAll (utf8Bytes s) = s.toList.map some := by
  have hall := decodeAll_append s.toList []
  rwa [List.append_nil, decodeAll, List.append_nil] at hall

/-- The bytes of a text decode to it. -/
theorem decodeLossy_utf8Bytes (s : String) : decodeLossy (utf8Bytes s) = s := by
  have hchars : (s.toList.map some).map (fun c => c.getD '\uFFFD') = s.toList := by
    simp [Function.comp_def]
  rw [decodeLossy, decodeAll_utf8Bytes, hchars, String.ofList_toList]

/-- Where every character was decoded so was the text. -/
theorem mapM_map_some (cs : List Char) : (cs.map some).mapM id = some cs := by
  induction cs with
  | nil => rfl
  | cons c cs ih => simp [List.mapM_cons, ih]

/-- The bytes of a text are well formed. -/
theorem decode?_utf8Bytes (s : String) : decode? (utf8Bytes s) = some s := by
  rw [decode?, decodeAll_utf8Bytes, mapM_map_some, Option.map_some, String.ofList_toList]

/-- The bytes of texts one after the other are the bytes of each. -/
theorem utf8Bytes_append (s t : String) : utf8Bytes (s ++ t) = utf8Bytes s ++ utf8Bytes t := by
  rw [utf8Bytes, String.toList_append, List.flatMap_append]
  rfl

end ContractCompiler.Text
