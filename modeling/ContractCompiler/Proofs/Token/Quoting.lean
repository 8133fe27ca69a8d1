import ContractCompiler.Contract.Expressions
import ContractCompiler.Proofs.Token.Rescan

/-!
# Scanning a string that was written

Between the quotes of a written string every character stands for itself or as an escape sequence, and the scanner
resolves each of them to the character it was written for. So the string is one token with the same characters.
-/

namespace ContractCompiler.Token

open Text

/-- The number of a character is that of the character. -/
theorem scalar?_toNat (c : Char) : scalar? c.toNat = some c := by
  have hvalid : c.toNat.isValidChar := c.valid
  rw [scalar?, dif_pos hvalid]
  rfl

/-- A digit has its value. -/
theorem hexValue?_digitChar {d : Nat} (h : d < 16) : hexValue? (Nat.digitChar d) = some d := by
  revert d
  decide

/-- The number of two hexadecimal digits. -/
theorem hex_twoHexDigits {n : Nat} (h : n < 256) (cs : List Char) :
    Escape.hex 2 (twoHexDigits n ++ cs) = (some n, twoHexDigits n, cs) := by
  have hhigh := hexValue?_digitChar (show n / 16 < 16 by omega)
  have hlow := hexValue?_digitChar (show n % 16 < 16 by omega)
  have hvalue : 16 * (n / 16) + n % 16 = n := Nat.div_add_mod n 16
  simp [Escape.hex, twoHexDigits, isHexDigit, hhigh, hlow, ofDigits, hvalue]

/-- The escape sequence of a character means it. -/
theorem read_hexEscape {c : Char} (h : c.toNat < 256) (cs : List Char) :
    Escape.read ('x' :: (twoHexDigits c.toNat ++ cs)) = ⟨.char c, 'x' :: twoHexDigits c.toNat, cs⟩ := by
  simp only [Escape.read, hex_twoHexDigits h, Escape.meaningOf, Option.bind_some, scalar?_toNat]

/-- What comes of a string when `text`, which stands for `c`, is put in front of it. -/
def Quoted.after (r : Quoted) (c : Char) (text : List Char) : Quoted :=
  ⟨c :: r.value, text ++ r.taken, r.rest, r.errors, r.closed⟩

/-- What an escape sequence takes ends where the text behind it starts. -/
theorem offset_behind_escape (offset : Nat) (taken : List Char) :
    offset + 1 + utf8Length taken = offset + utf8Length ('\\' :: taken) := by
  rw [utf8Length_cons, Nat.add_assoc]
  rfl

/-- An escape in a string stands for its character, and the string goes on behind it. -/
theorem quoted_escape {quote c : Char} {cs : List Char} (hquote : quote ≠ '\\') (taken : List Char)
    (h : Escape.read (taken ++ cs) = ⟨.char c, taken, cs⟩) (offset : Nat) :
    quoted quote offset ('\\' :: (taken ++ cs)) =
      (quoted quote (offset + utf8Length ('\\' :: taken)) cs).after c ('\\' :: taken) := by
  rw [quoted, if_neg (by decide), if_neg hquote.symm, if_pos rfl]
  simp only [h, offset_behind_escape]
  rfl

/-- Any other character stands for itself. -/
theorem quoted_plain {quote c : Char} (hline : c ≠ '\n') (hquote : c ≠ quote) (hslash : c ≠ '\\') (offset : Nat)
    (cs : List Char) :
    quoted quote offset (c :: cs) = (quoted quote (offset + utf8Length [c]) cs).after c [c] := by
  rw [quoted, if_neg hline, if_neg hquote, if_neg hslash]
  rfl

/-- A written character is read back as itself. -/
theorem quoted_solidityChar (offset : Nat) (c : Char) (cs : List Char) :
    quoted '\x22' offset (solidityChar c ++ cs) =
      (quoted '\x22' (offset + utf8Length (solidityChar c)) cs).after c (solidityChar c) := by
  unfold solidityChar
  split
  · subst c
    exact quoted_escape (by decide) ['\\'] rfl offset
  split
  · subst c
    exact quoted_escape (by decide) ['\x22'] rfl offset
  split
  · subst c
    exact quoted_escape (by decide) ['n'] rfl offset
  split
  · subst c
    exact quoted_escape (by decide) ['r'] rfl offset
  split
  · subst c
    exact quoted_escape (by decide) ['t'] rfl offset
  split
  · exact quoted_escape (by decide) ('x' :: twoHexDigits c.toNat) (read_hexEscape (by omega) cs) offset
  · exact quoted_plain ‹_› ‹_› ‹_› offset cs

/-- Texts of which each stands for a character are read one after the other, up to the closing quote. -/
theorem quoted_pieces {quote : Char} (hline : quote ≠ '\n') {pieces : List (List Char × Char)}
    (h : ∀ p ∈ pieces, ∀ offset cs, quoted quote offset (p.1 ++ cs) =
      (quoted quote (offset + utf8Length p.1) cs).after p.2 p.1) (rest : List Char) (offset : Nat) :
    quoted quote offset (pieces.flatMap Prod.fst ++ quote :: rest) =
      ⟨pieces.map Prod.snd, pieces.flatMap Prod.fst ++ [quote], rest, [], true⟩ := by
  induction pieces generalizing offset with
  | nil =>
    rw [List.flatMap_nil, List.nil_append, quoted, if_neg hline, if_pos rfl]
    rfl
  | cons p pieces ih =>
    obtain ⟨hp, hpieces⟩ := List.forall_mem_cons.mp h
    rw [List.flatMap_cons, List.append_assoc, hp, ih hpieces, Quoted.after, List.append_assoc]
    rfl

/-- The token that an opening quote starts is the string of the characters that the texts behind it stand for. -/
theorem lexeme_pieces {quote : Char} (hquote : quote = '\x22' ∨ quote = '\x27') {pieces : List (List Char × Char)}
    (h : ∀ p ∈ pieces, ∀ offset cs, quoted quote offset (p.1 ++ cs) =
      (quoted quote (offset + utf8Length p.1) cs).after p.2 p.1) (rest : List Char) (offset : Nat) :
    lexeme offset quote (pieces.flatMap Prod.fst ++ quote :: rest) =
      ⟨.string (String.ofList (pieces.map Prod.snd)), quote :: (pieces.flatMap Prod.fst ++ [quote]), rest, []⟩ := by
  have hline : quote ≠ '\n' := by
    rcases hquote with rfl | rfl <;> decide
  have hlexeme : ∀ cs, lexeme offset quote cs = Lexeme.string offset quote cs := by
    rcases hquote with rfl | rfl <;> exact fun _ => rfl
  rw [hlexeme, Lexeme.string, quoted_pieces hline h]
  simp

/-- The token that the opening quote of a written string starts is the string, up to its closing quote. -/
theorem lexeme_solidityChars (offset : Nat) (s : String) (rest : List Char) :
    lexeme offset '\x22' (s.toList.flatMap solidityChar ++ ['\x22'] ++ rest) =
      ⟨.string s, '\x22' :: (s.toList.flatMap solidityChar ++ ['\x22']), rest, []⟩ := by
  have hpieces : ∀ p ∈ s.toList.map fun c => (solidityChar c, c), ∀ offset cs, quoted '\x22' offset (p.1 ++ cs) =
      (quoted '\x22' (offset + utf8Length p.1) cs).after p.2 p.1 := by
    intro p hp offset cs
    obtain ⟨c, -, rfl⟩ := List.mem_map.mp hp
    exact quoted_solidityChar offset c cs
  simpa [List.flatMap_map, Function.comp_def] using lexeme_pieces (.inl rfl) hpieces rest offset

/-- A written string is one token. -/
theorem scans_string (s : String) (rest : List Char) : Scans (solidityString s).toList [.string s] rest := by
  rw [solidityString, String.toList_ofList]
  exact .token (by decide) fun offset => lexeme_solidityChars offset s rest

/-- The bytes of a text are those of its characters. -/
theorem utf8Length_toList (s : String) : utf8Length s.toList = s.utf8ByteSize := by
  have hchars : ∀ cs : List Char, utf8Length cs = (String.ofList cs).utf8ByteSize := by
    intro cs
    induction cs with
    | nil => rfl
    | cons c cs ih =>
      have hcons : String.ofList (c :: cs) = String.singleton c ++ String.ofList cs := by
        rw [String.singleton_eq_ofList, ← String.ofList_append, List.singleton_append]
      rw [utf8Length_cons, ih, hcons, String.utf8ByteSize_append, String.utf8ByteSize_singleton]
  rw [hchars, String.ofList_toList]

/-- A string survives being written: whatever follows the written text, its first token is the string, without a fault
and spanning exactly the text, and the scan goes on behind it as if it started there. -/
theorem scan_solidityString (s rest : String) :
    let size := (solidityString s).utf8ByteSize
    scan (solidityString s ++ rest) =
        ⟨⟨.string s, ⟨0, size⟩, false⟩, []⟩ :: scanFrom size rest.toList ∧
      scan (solidityString s) =
        [⟨⟨.string s, ⟨0, size⟩, false⟩, []⟩, ⟨⟨.endOfInput, ⟨size, size⟩, false⟩, []⟩] := by
  intro size
  have hscan : ∀ cs, scanFrom 0 ((solidityString s).toList ++ cs) =
      ⟨⟨.string s, ⟨0, size⟩, false⟩, []⟩ :: scanFrom size cs := by
    intro cs
    have hsize : 0 + utf8Length (solidityString s).toList = size := by rw [utf8Length_toList, Nat.zero_add]
    rw [← hsize, solidityString, String.toList_ofList]
    exact scanFrom_of_lexeme (by decide) (lexeme_solidityChars 0 s cs)
  constructor
  · rw [scan, String.toList_append]
    exact hscan rest.toList
  · rw [scan, ← List.append_nil (solidityString s).toList, hscan, scanFrom_nil]

end ContractCompiler.Token
