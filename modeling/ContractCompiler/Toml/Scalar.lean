import ContractCompiler.Text.Character
import ContractCompiler.Toml.Value

/-!
# Values written without quotes

Numbers, truth values and points in time. Each is a run of letters, digits, signs, points, colons and
underscores, and is judged as a whole; only a date and a time may have a space between them.
-/

namespace ContractCompiler.Toml

open Text

/-- Whether a character can be part of a value without quotes. -/
def isScalarChar (c : Char) : Bool :=
  c.isAlphanum || c = '+' || c = '-' || c = '_' || c = '.' || c = ':'

/-- The digits of a run in which single underscores may stand between digits. -/
def digits? (isDigit : Char → Bool) : List Char → Option (List Char)
  | [] => none
  | [c] => if isDigit c then some [c] else none
  | c :: '_' :: cs => if isDigit c then (digits? isDigit cs).map (c :: ·) else none
  | c :: cs => if isDigit c then (digits? isDigit cs).map (c :: ·) else none

/-- Takes a sign off the front, and says whether it was a minus. -/
def splitSign : List Char → Bool × List Char
  | '-' :: cs => (true, cs)
  | '+' :: cs => (false, cs)
  | cs => (false, cs)

/-- The digits of a decimal number: no zero before another digit. -/
def decimal? (cs : List Char) : Option (List Char) :=
  match cs with
  | ['0'] => some cs
  | '0' :: _ => none
  | _ => digits? Char.isDigit cs

/-- An integer if it fits in 64 bits. -/
def integerInRange (n : Int) : Except Fault Value :=
  if -0x8000000000000000 ≤ n && n < 0x8000000000000000 then .ok (.integer n) else .error .outOfRange

/-- The base that a leading zero and letter stand for. -/
def base? : List Char → Option (Nat × (Char → Bool) × List Char)
  | '0' :: 'x' :: cs => some (16, isHexDigit, cs)
  | '0' :: 'o' :: cs => some (8, fun c => '0' ≤ c && c ≤ '7', cs)
  | '0' :: 'b' :: cs => some (2, fun c => c = '0' || c = '1', cs)
  | _ => none

/-- A decimal number with a point or an exponent: `mantissa * 10 ^ exponent`. -/
structure Scientific where
  mantissa : Nat
  exponent : Int
deriving DecidableEq, Repr

/-- Whether the nearest binary64 number is infinite, which holds from half a step above the largest
finite one on. -/
def Scientific.overflows (x : Scientific) : Bool :=
  let limit := Nat.pow 2 1024 - Nat.pow 2 970
  let size : Int := (Nat.toDigits 10 x.mantissa).length + x.exponent
  if x.mantissa = 0 || size < 309 then false
  else if 309 < size then true
  else if 0 ≤ x.exponent then limit ≤ x.mantissa * Nat.pow 10 x.exponent.toNat
  else limit * Nat.pow 10 (-x.exponent).toNat ≤ x.mantissa

/-- The exponent at the end of a float, which may be missing. -/
def exponent? : List Char → Option Int
  | [] => some 0
  | _ :: cs =>
    let (negative, cs) := splitSign cs
    (digits? Char.isDigit cs).map fun ds =>
      if negative then -(ofDigits 10 ds : Int) else ofDigits 10 ds

/-- Whether a character starts an exponent. -/
def isExponentMark (c : Char) : Bool := c = 'e' || c = 'E'

/-- A float without its sign; the point, the exponent or both are there. -/
def scientific? (cs : List Char) : Option Scientific := do
  let (whole, rest) := cs.span fun c => c ≠ '.' && !isExponentMark c
  let whole ← decimal? whole
  match rest with
  | '.' :: rest =>
    let (fraction, rest) := rest.span fun c => !isExponentMark c
    let fraction ← digits? Char.isDigit fraction
    let exponent ← exponent? rest
    return ⟨ofDigits 10 (whole ++ fraction), exponent - fraction.length⟩
  | _ :: _ =>
    let exponent ← exponent? rest
    return ⟨ofDigits 10 whole, exponent⟩
  | [] => none

/-- A number: an integer in one of four bases or a float, `inf` and `nan` included. -/
def number (cs : List Char) : Except Fault Value :=
  match base? cs with
  | some (base, isDigit, ds) =>
    match digits? isDigit ds with
    | some ds => integerInRange (ofDigits base ds)
    | none => .error .malformed
  | none =>
    let (negative, unsigned) := splitSign cs
    if unsigned = "inf".toList || unsigned = "nan".toList then .ok (.float (String.ofList cs))
    else match decimal? unsigned with
      | some ds => integerInRange (if negative then -(ofDigits 10 ds : Int) else ofDigits 10 ds)
      | none =>
        match scientific? unsigned with
        | some x =>
          if !negative && x.overflows then .error .outOfRange else .ok (.float (String.ofList cs))
        | none => .error .malformed

/-- The number that all of `cs`, being digits, stand for, if it lies between `lo` and `hi`. -/
def bounded? (lo hi : Nat) (cs : List Char) : Option Nat :=
  if cs.all Char.isDigit then
    let n := ofDigits 10 cs
    if lo ≤ n && n ≤ hi then some n else none
  else none

/-- The number of days of a month. -/
def daysInMonth (year month : Nat) : Nat :=
  if month = 2 then
    if year % 4 = 0 && (year % 100 ≠ 0 || year % 400 = 0) then 29 else 28
  else if month = 4 || month = 6 || month = 9 || month = 11 then 30
  else 31

/-- Takes a date off the front. -/
def afterDate? : List Char → Option (List Char)
  | y₁ :: y₂ :: y₃ :: y₄ :: '-' :: m₁ :: m₂ :: '-' :: d₁ :: d₂ :: rest => do
    let year ← bounded? 0 9999 [y₁, y₂, y₃, y₄]
    let month ← bounded? 1 12 [m₁, m₂]
    let _ ← bounded? 1 (daysInMonth year month) [d₁, d₂]
    return rest
  | _ => none

/-- Takes a time of day off the front. -/
def afterTime? : List Char → Option (List Char)
  | h₁ :: h₂ :: ':' :: m₁ :: m₂ :: ':' :: s₁ :: s₂ :: rest => do
    let _ ← bounded? 0 23 [h₁, h₂]
    let _ ← bounded? 0 59 [m₁, m₂]
    let _ ← bounded? 0 60 [s₁, s₂]
    match rest with
    | '.' :: c :: cs => if c.isDigit then some (cs.dropWhile Char.isDigit) else none
    | _ => some rest
  | _ => none

/-- Whether a text is the distance of a time of day from universal time, or empty. -/
def isOffset : List Char → Bool
  | [] | ['Z'] | ['z'] => true
  | [sign, h₁, h₂, ':', m₁, m₂] =>
    (sign = '+' || sign = '-') && (bounded? 0 23 [h₁, h₂]).isSome && (bounded? 0 59 [m₁, m₂]).isSome
  | _ => false

/-- Whether a text is a time of day with or without an offset. -/
def isOffsetTime (cs : List Char) : Bool := (afterTime? cs).any isOffset

/-- Whether a text is a date. -/
def isDate (cs : List Char) : Bool := afterDate? cs = some []

/-- Whether a text is a date, a time of day, or a date and a time joined by a letter. -/
def isMoment (cs : List Char) : Bool :=
  match afterDate? cs with
  | some [] => true
  | some (c :: time) => (c = 'T' || c = 't') && isOffsetTime time
  | none => afterTime? cs = some []

/-- The value that a run of characters without quotes stands for. -/
def scalar (cs : List Char) : Except Fault Value :=
  if cs = "true".toList then .ok (.boolean true)
  else if cs = "false".toList then .ok (.boolean false)
  else if isMoment cs then .ok (.moment (String.ofList cs))
  else number cs

end ContractCompiler.Toml
