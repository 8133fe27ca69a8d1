import ContractCompiler.Journal

/-!
# Pages

A page collects indented lines. Writing on a page may fail; the page is kept then, and `indented`
restores the depth either way.
-/

namespace ContractCompiler

/-- Lines written so far, the depth of indentation, and what was noted while writing. -/
structure Page where
  /-- The text written once per level of indentation. -/
  unit : String
  depth : Nat
  lines : List String
  notes : Journal
deriving Repr

/-- Writing on a page, with failures of type `ε`. -/
abbrev Writing (ε : Type) (α : Type) := EStateM ε Page α

namespace Page

/-- A page with nothing on it. -/
def blank (unit : String) : Page := ⟨unit, 0, [], []⟩

/-- The indentation of a new line. -/
def indentation (p : Page) : String := String.join (List.replicate p.depth p.unit)

/-- The page with a new line, indented even if `text` is empty. -/
def addLine (p : Page) (text : String) : Page := { p with lines := p.lines ++ [p.indentation ++ text] }

/-- The page with `text` at the end of its last line, or on a new line if there is none. -/
def append (p : Page) (text : String) : Page :=
  match p.lines.getLast? with
  | some last => { p with lines := p.lines.dropLast ++ [last ++ text] }
  | none => p.addLine text

/-- The text of the page. -/
def text (p : Page) : String := "\n".intercalate p.lines

end Page

namespace Writing

variable {ε α : Type}

/-- Starts a new line with `text`. -/
def line (text : String) : Writing ε Unit := fun p => .ok () (p.addLine text)

/-- Goes on with `text` on the last line. -/
def push (text : String) : Writing ε Unit := fun p => .ok () (p.append text)

/-- Notes an event. -/
def note (event : Event) : Writing ε Unit := fun p => .ok () { p with notes := p.notes ++ [event] }

/-- Writes one level deeper. The depth is restored whether or not the writing fails. -/
def indented (body : Writing ε α) : Writing ε α := fun p =>
  match body { p with depth := p.depth + 1 } with
  | .ok a p' => .ok a { p' with depth := p'.depth - 1 }
  | .error e p' => .error e { p' with depth := p'.depth - 1 }

/-- Goes on with a value, or fails with an error. -/
def ofExcept (r : Except ε α) : Writing ε α := fun p =>
  match r with
  | .ok a => .ok a p
  | .error e => .error e p

end Writing

end ContractCompiler
