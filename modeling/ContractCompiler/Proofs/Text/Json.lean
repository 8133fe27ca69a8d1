import ContractCompiler.Text.Quoted
import ContractCompiler.Proofs.Token.Quoting

/-!
# Reading JSON

`Json.read?` reads a JSON text: a value of any kind, with white space around its parts and every escape of the format in its
strings. It knows nothing of how texts are written by `Text.jsonString`. The main statement is that such a text is read back: a
reader of strings takes exactly what was written, whatever characters it holds and whatever follows, and gives the text again.
-/

namespace ContractCompiler

/-- A JSON value. A number is kept as it is written. -/
inductive Json where
  | null
  | bool (value : Bool)
  | number (digits : List Char)
  | string (value : String)
  | array (items : List Json)
  | object (fields : List (String × Json))
deriving Repr

namespace Json

/-! ## The format -/

/-- A reader takes something off the front of a text, or finds that it is not there. -/
abbrev Reader (α : Type) := StateT (List Char) Option α

namespace Reader

/-- Takes a character. -/
def next : Reader Char
  | [] => none
  | c :: cs => some (c, cs)

/-- Takes the given characters. -/
def word : List Char → Reader Unit
  | [] => pure ()
  | c :: cs => do
    guard ((← next) = c)
    word cs

/-- Takes the white space that may stand around the parts of a text. -/
def space : Reader Unit := modify fun cs => cs.dropWhile fun c => c = ' ' || c = '\t' || c = '\n' || c = '\r'

/-- Takes one digit or more. -/
def digits : Reader (List Char) := do
  let ds := (← get).takeWhile Char.isDigit
  guard (ds ≠ [])
  modify fun cs => cs.drop ds.length
  return ds

/-- Takes a fraction, if there is one. -/
def fraction : Reader (List Char) :=
  (do word ['.']; return '.' :: (← digits)) <|> pure []

/-- Takes an exponent, if there is one. -/
def exponent : Reader (List Char) :=
  (do
    let letter ← next
    guard (letter = 'e' || letter = 'E')
    let sign ← (do word ['+']; pure ['+']) <|> (do word ['-']; pure ['-']) <|> pure []
    return letter :: sign ++ (← digits)) <|> pure []

/-- Takes the rest of a number without a sign whose first digit is `first`. A zero in front stands alone. -/
def magnitude (first : Char) : Reader (List Char) := do
  guard first.isDigit
  let whole ← if first = '0' then pure [] else digits <|> pure []
  return first :: whole ++ (← fraction) ++ (← exponent)

/-- Takes the rest of a number that starts with `first`. -/
def number (first : Char) : Reader (List Char) := do
  if first = '-' then return '-' :: (← magnitude (← next))
  else magnitude first

/-- Takes a hexadecimal digit. -/
def hexDigit : Reader Nat := do Text.hexValue? (← next)

/-- Takes the four digits of a UTF-16 code unit. -/
def codeUnit : Reader Nat := do
  let a ← hexDigit
  let b ← hexDigit
  let c ← hexDigit
  let d ← hexDigit
  return ((a * 16 + b) * 16 + c) * 16 + d

open Token.Escape in
/-- Takes the rest of an escape that gives its character by code units: one, or a surrogate pair. -/
def codePoint : Reader Char := do
  let high ← codeUnit
  if isHighSurrogate high then
    word ['\\', 'u']
    let low ← codeUnit
    guard (isLowSurrogate low)
    Token.scalar? (pairCode high low)
  else Token.scalar? high

/-- Takes the rest of an escape, after its backslash. -/
def escape : Reader Char := do
  match ← next with
  | '\x22' => return '\x22'
  | '\\' => return '\\'
  | '/' => return '/'
  | 'b' => return '\x08'
  | 'f' => return '\x0c'
  | 'n' => return '\n'
  | 'r' => return '\r'
  | 't' => return '\t'
  | 'u' => codePoint
  | _ => failure

/-- Takes the next character of a string, or the quote that ends it. No control character stands in a string by itself. -/
def inString : Reader (Option Char) := do
  let c ← next
  if c = '\x22' then return none
  else if c = '\\' then return some (← escape)
  else
    guard (0x20 ≤ c.toNat)
    return some c

/-- Takes the rest of a string of fewer than `bound` characters. -/
def stringWithin : Nat → Reader (List Char)
  | 0 => failure
  | bound + 1 => do
    match ← inString with
    | none => return []
    | some c => return c :: (← stringWithin bound)

/-- Takes the rest of a string, after its opening quote. -/
def stringTail : Reader String := do
  return String.ofList (← stringWithin (← get).length)

/-- Takes the rest of a list of fewer than `bound` more elements: a comma before each, and `close` at its end. -/
def listWithin {α : Type} (element : Reader α) (close : Char) : Nat → Reader (List α)
  | 0 => failure
  | bound + 1 => do
    let c ← next
    if c = close then return []
    guard (c = ',')
    return (← element) :: (← listWithin element close bound)

/-- Takes the rest of a list, after its opening bracket. -/
def listTail {α : Type} (element : Reader α) (close : Char) : Reader (List α) := do
  space
  (do word [close]; return []) <|> do
    return (← element) :: (← listWithin element close (← get).length)

/-- Takes a field of an object, whose value `value` takes. -/
def field (value : Reader Json) : Reader (String × Json) := do
  space
  word ['\x22']
  let name ← stringTail
  space
  word [':']
  return (name, ← value)

/-- Takes the rest of a value whose first character is given, and inside it the values that `inner` takes. -/
def valueTail (inner : Reader Json) : Char → Reader Json
  | 'n' => do word "ull".toList; return null
  | 't' => do word "rue".toList; return bool true
  | 'f' => do word "alse".toList; return bool false
  | '\x22' => return string (← stringTail)
  | '[' => return array (← listTail inner ']')
  | '\x7b' => return object (← listTail (field inner) '\x7d')
  | c => return Json.number (← number c)

/-- Takes a value that nests fewer than `bound` levels deep, and the white space around it. -/
def valueWithin : Nat → Reader Json
  | 0 => failure
  | bound + 1 => do
    space
    let value ← valueTail (valueWithin bound) (← next)
    space
    return value

end Reader

/-- The value of a JSON text. -/
def read? (text : String) : Option Json := do
  let (value, rest) ← Reader.valueWithin (text.length + 1) text.toList
  guard rest.isEmpty
  return value

/-! ## Reading what was written -/

/-- The reader takes `text` off the front, leaves `rest`, and gives `a`. -/
def Reads {α : Type} (r : Reader α) (text rest : List Char) (a : α) : Prop := r (text ++ rest) = some (a, rest)

namespace Reads

open Reader

variable {α β : Type} {r : Reader α} {k : α → Reader β} {text others rest : List Char} {a : α} {b : β}

/-- A value takes nothing. -/
theorem pure (a : α) : Reads (pure a) [] rest a := rfl

/-- One reader takes what stands in front, and the next one what stands behind it. -/
theorem bind (hr : Reads r text (others ++ rest) a) (hk : Reads (k a) others rest b) :
    Reads (r >>= k) (text ++ others) rest b := by
  show ((r ((text ++ others) ++ rest)).bind fun p => k p.1 p.2) = some (b, rest)
  rw [List.append_assoc, hr]
  exact hk

/-- A reader that takes nothing before another one. -/
theorem bind_nothing (hr : Reads r [] (text ++ rest) a) (hk : Reads (k a) text rest b) : Reads (r >>= k) text rest b :=
  hr.bind hk

/-- A reader that takes nothing behind another one. -/
theorem then_nothing (hr : Reads r text rest a) (hk : Reads (k a) [] rest b) : Reads (r >>= k) text rest b := by
  rw [← List.append_nil text]
  exact Reads.bind hr hk

/-- What is made of a value takes what the value does. -/
theorem map (hr : Reads r text rest a) (f : α → β) : Reads (do return f (← r)) text rest (f a) :=
  hr.then_nothing (.pure _)

/-- Looking at the text takes nothing. -/
theorem get : Reads (get : Reader (List Char)) [] rest rest := rfl

/-- Taking a character takes the first one. -/
theorem next (c : Char) : Reads next [c] rest c := rfl

/-- A condition that holds takes nothing. -/
theorem passed {p : Prop} [Decidable p] (h : p) : Reads (guard p : Reader Unit) [] rest () := by
  have hguard : (guard p : Reader Unit) = Pure.pure () := if_pos h
  rw [hguard]
  exact .pure ()

/-- Other characters are not taken. -/
theorem word_eq_none {c d : Char} (h : c ≠ d) (ds cs : List Char) : Reader.word (d :: ds) (c :: cs) = none := by
  show (((guard (c = d) : Reader Unit) cs).bind fun p => Reader.word ds p.2) = none
  have hguard : (guard (c = d) : Reader Unit) = failure := if_neg h
  rw [hguard]
  rfl

/-- A word takes its characters. -/
theorem word (cs : List Char) : Reads (word cs) cs rest () := by
  induction cs with
  | nil => rfl
  | cons c cs ih => exact (Reads.next c).bind (.bind_nothing (.passed rfl) ih)

/-- There is no white space to take before a character that is none. -/
theorem space {c : Char} (h : (c = ' ' || c = '\t' || c = '\n' || c = '\r') = false) :
    Reads space [] (c :: rest) () := by
  show some ((), (c :: rest).dropWhile _) = some ((), c :: rest)
  rw [List.dropWhile_cons, if_neg (by rw [h]; exact Bool.false_ne_true)]

/-- At the end there is no white space. -/
theorem space_nil : Reads Reader.space [] [] () := rfl

/-! ### Strings -/

/-- A digit is taken for its value. -/
theorem hexDigit {d : Nat} (h : d < 16) : Reads hexDigit [Nat.digitChar d] rest d := by
  refine (Reads.next _).bind ?_
  rw [Token.hexValue?_digitChar h]
  rfl

/-- Four digits are taken for their code unit. -/
theorem codeUnit {n : Nat} (h : n < 65536) : Reads codeUnit (Text.fourHexDigits n) rest n := by
  have hvalue : ((n / 4096 % 16 * 16 + n / 256 % 16) * 16 + n / 16 % 16) * 16 + n % 16 = n := by omega
  have hread : Reads Reader.codeUnit (Text.fourHexDigits n) rest
      (((n / 4096 % 16 * 16 + n / 256 % 16) * 16 + n / 16 % 16) * 16 + n % 16) :=
    (Reads.hexDigit (by omega)).bind <| (Reads.hexDigit (by omega)).bind <| (Reads.hexDigit (by omega)).bind <|
      (Reads.hexDigit (by omega)).bind (.pure _)
  rwa [hvalue] at hread

/-- A control character is read from the digits of its code. -/
theorem codePoint {c : Char} (h : c.toNat < 0x20) : Reads codePoint (Text.fourHexDigits c.toNat) rest c := by
  have hplain : Token.Escape.isHighSurrogate c.toNat = false := by
    rw [Token.Escape.isHighSurrogate, Bool.and_eq_false_iff]
    exact .inl (decide_eq_false (by omega))
  refine (Reads.codeUnit (by omega)).then_nothing ?_
  rw [hplain, if_neg Bool.false_ne_true, Token.scalar?_toNat]
  rfl

/-- A character is written as a backslash and a letter that stands for it, as the digits of its code, or as it is. -/
theorem jsonChar_cases (c : Char) :
    (∃ letter ∈ "\"\\bfnrt".toList, Text.jsonChar c = ['\\', letter] ∧ ∀ rest, Reads escape [letter] rest c) ∨
      (c.toNat < 0x20 ∧ Text.jsonChar c = '\\' :: 'u' :: Text.fourHexDigits c.toNat) ∨
        (0x20 ≤ c.toNat ∧ c ≠ '\x22' ∧ c ≠ '\\' ∧ Text.jsonChar c = [c]) := by
  by_cases hquote : c = '\x22'
  · subst c
    exact .inl ⟨'\x22', by decide, rfl, fun _ => rfl⟩
  by_cases hslash : c = '\\'
  · subst c
    exact .inl ⟨'\\', by decide, rfl, fun _ => rfl⟩
  by_cases hback : c = '\x08'
  · subst c
    exact .inl ⟨'b', by decide, rfl, fun _ => rfl⟩
  by_cases hfeed : c = '\x0c'
  · subst c
    exact .inl ⟨'f', by decide, rfl, fun _ => rfl⟩
  by_cases hline : c = '\n'
  · subst c
    exact .inl ⟨'n', by decide, rfl, fun _ => rfl⟩
  by_cases hreturn : c = '\r'
  · subst c
    exact .inl ⟨'r', by decide, rfl, fun _ => rfl⟩
  by_cases htab : c = '\t'
  · subst c
    exact .inl ⟨'t', by decide, rfl, fun _ => rfl⟩
  rw [Text.jsonChar, if_neg hquote, if_neg hslash, if_neg hback, if_neg hfeed, if_neg hline, if_neg hreturn, if_neg htab]
  by_cases hcontrol : c.toNat < 0x20
  · exact .inr (.inl ⟨hcontrol, if_pos hcontrol⟩)
  · exact .inr (.inr ⟨Nat.le_of_not_lt hcontrol, hquote, hslash, if_neg hcontrol⟩)

/-- What is written for a character is read back as it, whatever follows. -/
theorem inString (c : Char) : Reads inString (Text.jsonChar c) rest (some c) := by
  rcases jsonChar_cases c with ⟨letter, -, htext, hread⟩ | ⟨hcontrol, htext⟩ | ⟨hcode, hquote, hslash, htext⟩
  · rw [htext]
    exact (Reads.next '\\').bind ((hread rest).map some)
  · rw [htext]
    exact (Reads.next '\\').bind (((Reads.next 'u').bind (Reads.codePoint hcontrol)).map some)
  · rw [htext]
    refine (Reads.next c).then_nothing ?_
    rw [if_neg hquote, if_neg hslash]
    exact .bind_nothing (.passed hcode) (.pure _)

/-- A written string is taken up to its closing quote. -/
theorem stringWithin {bound : Nat} (cs : List Char) (h : cs.length < bound) :
    Reads (stringWithin bound) (cs.flatMap Text.jsonChar ++ ['\x22']) rest cs := by
  induction cs generalizing bound with
  | nil =>
    obtain ⟨bound, rfl⟩ := Nat.exists_eq_add_of_lt h
    rfl
  | cons c cs ih =>
    obtain ⟨bound, rfl⟩ := Nat.exists_eq_add_of_lt h
    rw [List.flatMap_cons, List.append_assoc]
    exact (Reads.inString c).bind ((ih (by rw [List.length_cons]; omega)).map (c :: ·))

/-- No character is written as nothing, so a string has no more characters than its text. -/
theorem length_le_flatMap_jsonChar (cs : List Char) : cs.length ≤ (cs.flatMap Text.jsonChar).length := by
  have hchar : ∀ c, Text.jsonChar c ≠ [] := by
    intro c hnone
    have hread : Reads Reader.inString (Text.jsonChar c) [] (some c) := Reads.inString c
    rw [hnone] at hread
    cases hread
  induction cs with
  | nil => simp
  | cons c cs ih =>
    have hpos := List.length_pos_iff.mpr (hchar c)
    rw [List.flatMap_cons, List.length_append, List.length_cons]
    omega

/-- The rest of a written string is read back as the text, whatever follows. -/
theorem stringTail (s : String) : Reads stringTail (s.toList.flatMap Text.jsonChar ++ ['\x22']) rest s := by
  have hbound : s.toList.length < (s.toList.flatMap Text.jsonChar ++ ['\x22'] ++ rest).length := by
    have := length_le_flatMap_jsonChar s.toList
    simp only [List.length_append, List.length_singleton]
    omega
  have hread : Reads _ _ rest (String.ofList s.toList) := (Reads.stringWithin s.toList hbound).map String.ofList
  rw [String.ofList_toList] at hread
  exact .bind_nothing .get hread

/-- A written string is its written characters between quotes. -/
theorem toList_jsonString (s : String) :
    (Text.jsonString s).toList = ['\x22'] ++ (s.toList.flatMap Text.jsonChar ++ ['\x22']) := by
  rw [Text.jsonString, String.toList_ofList]
  rfl

/-! ### Values and fields -/

/-- A written string is a value, if no white space follows it. -/
theorem string (s : String) (bound : Nat) (hrest : Reads Reader.space [] rest ()) :
    Reads (valueWithin (bound + 1)) (Text.jsonString s).toList rest (.string s) := by
  rw [toList_jsonString]
  refine .bind_nothing (.space rfl) ((Reads.next '\x22').bind ?_)
  exact ((Reads.stringTail s).map Json.string).then_nothing (.bind_nothing hrest (.pure _))

/-- A field is taken with its name and its value. -/
theorem field {value : Reader Json} {v : Json} (name : String) (hvalue : Reads value text rest v) :
    Reads (field value) ((Text.jsonString name).toList ++ ':' :: text) rest (name, v) := by
  rw [toList_jsonString, List.append_assoc]
  refine .bind_nothing (.space rfl) ((Reads.word ['\x22']).bind ((Reads.stringTail name).bind ?_))
  exact .bind_nothing (.space rfl) ((Reads.word [':']).bind (hvalue.map (name, ·)))

/-- The closing bracket ends a list. -/
theorem listWithin_nil (close : Char) (limit : Nat) : Reads (listWithin r close (limit + 1)) [close] rest [] := by
  refine (Reads.next close).then_nothing ?_
  rw [if_pos rfl]
  rfl

/-- A comma, one more element, and the list goes on. -/
theorem listWithin_cons {close : Char} {limit : Nat} {as : List α} (hclose : ',' ≠ close)
    (hfirst : Reads r text (others ++ rest) a) (hmore : Reads (listWithin r close limit) others rest as) :
    Reads (listWithin r close (limit + 1)) (',' :: (text ++ others)) rest (a :: as) := by
  refine (Reads.next ',').bind ?_
  rw [if_neg hclose]
  exact .bind_nothing (.passed rfl) (hfirst.bind (hmore.map (a :: ·)))

/-- If the first reader finds nothing, the second one reads. -/
theorem orElse {r' : Reader α} (hfirst : r (text ++ rest) = none) (h : Reads r' text rest a) :
    Reads (r <|> r') text rest a := by
  show (r (text ++ rest) <|> r' (text ++ rest)) = some (a, rest)
  rw [hfirst]
  exact h

/-- A list that does not start with its closing bracket has a first element. -/
theorem listTail {c close : Char} {as : List α} (hspace : Reads Reader.space [] (c :: text ++ others ++ rest) ())
    (hclose : c ≠ close) (hfirst : Reads r (c :: text) (others ++ rest) a)
    (hmore : Reads (listWithin r close (others ++ rest).length) others rest as) :
    Reads (listTail r close) (c :: text ++ others) rest (a :: as) := by
  have hnone : (do Reader.word [close]; return [] : Reader (List α)) (c :: text ++ others ++ rest) = none := by
    show ((Reader.word [close] (c :: (text ++ others ++ rest))).bind _) = none
    rw [word_eq_none hclose]
    rfl
  exact .bind_nothing hspace (.orElse hnone (hfirst.bind (.bind_nothing .get (hmore.map (a :: ·)))))

/-! ### Objects -/

/-- The text of a field whose value is a string. -/
def fieldText (f : String × String) : List Char := (Text.jsonString f.1).toList ++ ':' :: (Text.jsonString f.2).toList

/-- The texts of more fields, each behind a comma, and the closing brace. -/
def moreText (fs : List (String × String)) : List Char := fs.flatMap (fun f => ',' :: fieldText f) ++ ['\x7d']

/-- A reader of values that takes every written string. -/
def TakesStrings (value : Reader Json) : Prop :=
  ∀ s rest, Reads Reader.space [] rest () → Reads value (Text.jsonString s).toList rest (.string s)

/-- What follows a field is a comma or the closing brace. -/
theorem space_moreText (fs : List (String × String)) (rest : List Char) :
    Reads Reader.space [] (moreText fs ++ rest) () := by
  cases fs <;> exact .space rfl

/-- There are fewer fields than characters. -/
theorem length_lt_moreText (fs : List (String × String)) : fs.length < (moreText fs).length := by
  induction fs with
  | nil => exact Nat.zero_lt_one
  | cons f fs ih =>
    simp only [moreText, List.flatMap_cons, List.length_append, List.length_cons] at ih ⊢
    omega

/-- Written fields are taken one after the other up to the closing brace. -/
theorem moreFields {value : Reader Json} (hvalue : TakesStrings value) {limit : Nat} (fs : List (String × String))
    (h : fs.length < limit) :
    Reads (listWithin (Reader.field value) '\x7d' limit) (moreText fs) rest (fs.map fun f => (f.1, .string f.2)) := by
  induction fs generalizing limit with
  | nil =>
    obtain ⟨limit, rfl⟩ := Nat.exists_eq_add_of_lt h
    exact .listWithin_nil _ _
  | cons f fs ih =>
    obtain ⟨limit, rfl⟩ := Nat.exists_eq_add_of_lt h
    have hfirst := Reads.field f.1 (hvalue f.2 _ (space_moreText fs rest))
    rw [moreText, List.flatMap_cons, List.append_assoc]
    exact .listWithin_cons (by decide) hfirst (ih (by rw [List.length_cons]; omega))

/-- Fields with commas between them, up to the closing brace. -/
theorem fields {value : Reader Json} (hvalue : TakesStrings value) (f : String × String) (fs : List (String × String)) :
    Reads (Reader.listTail (Reader.field value) '\x7d') (fieldText f ++ moreText fs) rest
      ((f :: fs).map fun f => (f.1, .string f.2)) := by
  have hlimit : fs.length < (moreText fs ++ rest).length := by
    have := length_lt_moreText fs
    rw [List.length_append]
    omega
  have hfirst := Reads.field f.1 (hvalue f.2 _ (space_moreText fs rest))
  have hopen : fieldText f = '\x22' :: (fieldText f).tail := by rw [fieldText, toList_jsonString]; rfl
  rw [← fieldText, hopen] at hfirst
  rw [hopen]
  exact .listTail (.space rfl) (by decide) hfirst (Reads.moreFields hvalue fs hlimit)

/-- Fields in braces are an object. -/
theorem object (bound : Nat) (f : String × String) (fs : List (String × String)) (hrest : Reads Reader.space [] rest ()) :
    Reads (valueWithin (bound + 2)) (['\x7b'] ++ (fieldText f ++ moreText fs)) rest
      (.object ((f :: fs).map fun f => (f.1, .string f.2))) := by
  have hfields : Reads _ _ rest _ := Reads.fields (fun s _ => Reads.string s bound) f fs
  refine .bind_nothing (.space rfl) ((Reads.next '\x7b').bind ?_)
  exact (hfields.map Json.object).then_nothing (.bind_nothing hrest (.pure _))

end Reads

/-- The text of an object whose fields are strings is read back, field by field. -/
theorem read?_object {text : String} (f : String × String) (fs : List (String × String))
    (h : text.toList = ['\x7b'] ++ (Reads.fieldText f ++ Reads.moreText fs)) :
    read? text = some (.object ((f :: fs).map fun f => (f.1, .string f.2))) := by
  have hlength : ∃ bound, text.length + 1 = bound + 2 := by
    rw [← String.length_toList, h]
    exact ⟨_, rfl⟩
  obtain ⟨bound, hbound⟩ := hlength
  have hread : Reads _ _ [] _ := Reads.object bound f fs .space_nil
  rw [Reads, List.append_nil, ← h] at hread
  rw [read?, hbound, hread]
  rfl

-- Blanks, nesting and a pair of surrogates are read; half a pair, a bare line break in a string and text after the value are not.
example : (read? " \x7b\"a\" : [\"\\ud83d\\ude00\", -0.5e1, null]\x7d").isSome = true ∧ (read? "\"\\ud83d\"").isNone = true ∧
    (read? "\"a\nb\"").isNone = true ∧ (read? "\x7b\x7d\x7b\x7d").isNone = true := by decide +kernel

end Json

end ContractCompiler
