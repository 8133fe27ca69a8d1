import ContractCompiler.Diagnostic.Basic
import ContractCompiler.Text.Width

/-!
# Snippets

The text of a diagnostic: its message, the lines of the source it is about with a drawing of the
labelled part, and its notes. A label within one line is underlined; a label over several lines is
framed on the left, and of the lines in its middle only the first three and the last are shown.
-/

namespace ContractCompiler

namespace Snippet

open Text

/-- A line of the source: where it starts, and its characters with the line break. -/
structure Line where
  start : Nat
  text : List Char

/-- The texts of the lines of a source; a line ends after its line feed. -/
def lineTexts : List Char → List (List Char)
  | [] => [[]]
  | c :: cs =>
    if c = '\n' then [c] :: lineTexts cs
    else match lineTexts cs with
      | l :: ls => (c :: l) :: ls
      | [] => [[c]]

/-- Lines with the given texts, the first of which starts at `start`. -/
def linesFrom (start : Nat) : List (List Char) → List Line
  | [] => []
  | text :: texts => ⟨start, text⟩ :: linesFrom (start + utf8Length text) texts

/-- The lines of a source. There is always one, and there is one after a final line break. -/
def lines (source : String) : List Line := linesFrom 0 (lineTexts source.toList)

/-- The number, from 0, of the last line that starts at or before `offset`. -/
def lineIndex (ls : List Line) (offset : Nat) : Nat :=
  (ls.filter fun l => l.start ≤ offset).length - 1

/-- The characters of a text that start before `offset`, the text starting at 0. -/
def countBefore (offset : Nat) : List Char → Nat
  | [] => 0
  | c :: cs => if offset = 0 then 0 else 1 + countBefore (offset - c.utf8Size) cs

/-- The text of a line that is shown: without line break characters and NULs at its end. -/
def trimmed (text : List Char) : List Char :=
  (text.reverse.dropWhile fun c => c = '\n' || c = '\r' || c = '\x00').reverse

/-- A character of a line, where it starts, and how many columns it takes. -/
structure Cell where
  char : Char
  offset : Nat
  width : Nat

/-- The number of columns between tab stops. -/
def tabWidth : Nat := 4

/-- The cells of a text from `offset` and `column` on. A tab goes to the next tab stop. -/
def cellsFrom : Nat → Nat → List Char → List Cell
  | _, _, [] => []
  | offset, column, c :: cs =>
    let width := if c = '\t' then tabWidth - column % tabWidth else charWidth c
    ⟨c, offset, width⟩ :: cellsFrom (offset + c.utf8Size) (column + width) cs

/-- The cells of the shown text of a line. -/
def cells (l : Line) : List Cell := cellsFrom 0 0 (trimmed l.text)

/-- A character `n` times. -/
def times (n : Nat) (c : Char) : String := String.ofList (List.replicate n c)

/-- The shown text of a line, tabs as spaces. -/
def shown (l : Line) : String :=
  String.join ((cells l).map fun cell =>
    if cell.char = '\t' then times cell.width ' ' else String.singleton cell.char)

/-- Carets under the part of a line from `start` to `stop`, spaces before it. One more column stands
at the end of the line. -/
def underline (l : Line) (start stop : Nat) : String :=
  let final : Cell := ⟨'\x00', utf8Length (trimmed l.text), 1⟩
  String.join ((cells l ++ [final]).map fun cell =>
    if max start cell.offset < min stop (cell.offset + cell.char.utf8Size) then times cell.width '^'
    else if cell.offset < stop then times cell.width ' '
    else "")

/-- A rule over the columns of the characters of a line that start before `stop`. -/
def rule (l : Line) (stop : Nat) : String :=
  String.join (((cells l).takeWhile fun cell => cell.offset < stop).map fun cell =>
    times cell.width '─')

/-- The bytes of the blanks a shown line starts with. -/
def leadingBlanks (l : Line) : Nat := utf8Length ((trimmed l.text).takeWhile isBlank)

/-- The margin left of a snippet that is as wide as `digits` digits. -/
def gutter (digits : Nat) : String := times (digits + 1) ' '

/-- A line of the source with its number, from 0, after the columns `frame`. -/
def numbered (digits : Nat) (frame : String) (index : Nat) (l : Line) : String :=
  let number := toString (index + 1)
  times (digits - number.length) ' ' ++ number ++ " │" ++ frame ++ " " ++ shown l

/-- The drawing of a label from `start` to `stop` within one line. -/
def singleLine (digits : Nat) (index : Nat) (l : Line) (label : Label) : List String :=
  let start := label.span.start - l.start
  let stop := max (label.span.stop - l.start) (start + 1)
  [numbered digits "" index l,
   gutter digits ++ "│ " ++ underline l start stop ++ " " ++ label.message]

/-- Whether a line between the lines `first` and `last` of a label is shown. -/
def isShown (first last index : Nat) : Bool :=
  index = first || index = last || index - first ≤ 3 || last - index ≤ 1

/-- The drawing of a line inside a label over several lines; a single line that is left out between
two shown ones is shown too, and several are a break. `before` is the line shown before. -/
def middleLines (digits first : Nat) (before : Nat) : List (Nat × Line) → List String
  | [] => []
  | (index, l) :: rest =>
    let skipped := index - before
    let gap :=
      if skipped ≤ 1 then []
      else [gutter digits ++ "·" ++ (if before = first then "  " else " │")]
    gap ++ numbered digits " │" index l :: middleLines digits first index rest

/-- The lines from `first` to `last` that are shown. -/
def shownLines (ls : List Line) (first last : Nat) : List (Nat × Line) :=
  let inside := (ls.zipIdx.map fun (l, i) => (i, l)).filter fun (i, _) => first ≤ i && i ≤ last
  let chosen (i : Nat) : Bool := isShown first last i
  inside.filter fun (i, _) => chosen i || (chosen (i - 1) && chosen (i + 1))

/-- The drawing of a label over several lines. -/
def severalLines (digits : Nat) (ls : List Line) (first last : Nat) (label : Label) : List String :=
  match shownLines ls first last with
  | [] => []
  | (index, top) :: rest =>
    let start := label.span.start - top.start
    let opening :=
      if start ≤ leadingBlanks top then [numbered digits " ╭" index top]
      else [numbered digits "  " index top,
        gutter digits ++ "│ ╭" ++ rule top (start + 1) ++ "^"]
    let closing := match ls[last]? with
      | some bottom =>
        [gutter digits ++ "│ ╰" ++ rule bottom (label.span.stop - bottom.start) ++ "^ " ++
          label.message]
      | none => []
    opening ++ middleLines digits first index rest ++ closing

/-- The lines of a diagnostic about a labelled part of a source. -/
def labelled (path source : String) (d : Diagnostic) (label : Label) : List String :=
  let ls := lines source
  let first := lineIndex ls label.span.start
  let last := lineIndex ls label.span.stop
  let digits := (toString (last + 1)).length
  match ls[first]? with
  | none => []
  | some top =>
    let column := countBefore (label.span.start - top.start) top.text + 1
    let bar := gutter digits ++ "│" ++ (if first = last then "" else "  ")
    let header := gutter digits ++ "┌─ " ++ path ++ ":" ++ toString (first + 1) ++ ":" ++
      toString column
    let drawing :=
      if first = last then singleLine digits first top label
      else severalLines digits ls first last label
    let notes :=
      if d.notes.isEmpty then []
      else bar :: d.notes.map fun note => gutter digits ++ "= " ++ note
    header :: bar :: drawing ++ notes

end Snippet

/-- The lines of a diagnostic about a source, the last one empty. -/
def Diagnostic.lines (d : Diagnostic) (path source : String) : List String :=
  ("error: " ++ d.message) ::
    (match d.label with
      | some label => Snippet.labelled path source d label
      | none => []) ++ [""]

/-- The text of a diagnostic about a source. -/
def Diagnostic.text (d : Diagnostic) (path source : String) : String :=
  String.join ((d.lines path source).map (· ++ "\n"))

end ContractCompiler
