/-!
# UTF-8

Bytes of a text, and the texts bytes stand for. `decode?` accepts exactly well-formed UTF-8;
`decodeLossy` puts a replacement character in place of each longest run of bytes that starts a
character and does not finish it.
-/

namespace ContractCompiler.Text

/-- The bytes of a text. -/
def utf8Bytes (s : String) : List UInt8 := s.toList.flatMap String.utf8EncodeChar

/-- The shape of a character by its first byte: how many bytes follow, the bits the first byte gives,
and the range of the second byte. -/
def leadShape? (b : UInt8) : Option (Nat × Nat × UInt8 × UInt8) :=
  if b ≤ 0x7F then some (0, b.toNat, 0x80, 0xBF)
  else if 0xC2 ≤ b && b ≤ 0xDF then some (1, b.toNat - 0xC0, 0x80, 0xBF)
  else if b = 0xE0 then some (2, 0, 0xA0, 0xBF)
  else if b = 0xED then some (2, 0x0D, 0x80, 0x9F)
  else if 0xE1 ≤ b && b ≤ 0xEF then some (2, b.toNat - 0xE0, 0x80, 0xBF)
  else if b = 0xF0 then some (3, 0, 0x90, 0xBF)
  else if 0xF1 ≤ b && b ≤ 0xF3 then some (3, b.toNat - 0xF0, 0x80, 0xBF)
  else if b = 0xF4 then some (3, 4, 0x80, 0x8F)
  else none

/-- Reads `count` continuation bytes after the bits `code`, the next of them between `lo` and `hi`.
The code point is given if all are there; what is left is given either way. -/
def continuations : Nat → Nat → UInt8 → UInt8 → List UInt8 → Option Nat × List UInt8
  | 0, code, _, _, bs => (some code, bs)
  | _ + 1, _, _, _, [] => (none, [])
  | n + 1, code, lo, hi, b :: bs =>
    if lo ≤ b && b ≤ hi then continuations n (code * 64 + (b.toNat - 0x80)) 0x80 0xBF bs
    else (none, b :: bs)

/-- Reads one character, or the longest run of bytes that starts one and does not finish it, after
the first byte `b`. -/
def decodeChar (b : UInt8) (bs : List UInt8) : Option Char × List UInt8 :=
  match leadShape? b with
  | none => (none, bs)
  | some (count, code, lo, hi) =>
    let r := continuations count code lo hi bs
    (r.1.map Char.ofNat, r.2)

theorem length_continuations_le (n code : Nat) (lo hi : UInt8) (bs : List UInt8) :
    (continuations n code lo hi bs).2.length ≤ bs.length := by
  induction n generalizing code lo hi bs with
  | zero => simp [continuations]
  | succ n ih =>
    cases bs with
    | nil => simp [continuations]
    | cons b bs =>
      rw [continuations]
      split
      · have := ih (code * 64 + (b.toNat - 0x80)) 0x80 0xBF bs
        simp only [List.length_cons]
        omega
      · simp

theorem length_decodeChar_le (b : UInt8) (bs : List UInt8) :
    (decodeChar b bs).2.length ≤ bs.length := by
  unfold decodeChar
  split
  · simp
  · exact length_continuations_le _ _ _ _ _

/-- The characters of bytes, with `none` for each run of bytes that is no character. -/
def decodeAll : List UInt8 → List (Option Char)
  | [] => []
  | b :: bs => (decodeChar b bs).1 :: decodeAll (decodeChar b bs).2
termination_by bs => bs.length
decreasing_by
  have := length_decodeChar_le b bs
  simp only [List.length_cons]
  omega

/-- The text of well-formed bytes. -/
def decode? (bs : List UInt8) : Option String := ((decodeAll bs).mapM id).map String.ofList

/-- The text of bytes, with a replacement character for what is malformed. -/
def decodeLossy (bs : List UInt8) : String :=
  String.ofList ((decodeAll bs).map fun c => c.getD '\uFFFD')

end ContractCompiler.Text
