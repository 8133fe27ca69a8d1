/-!
# TOML values and tables

The tree a TOML document stands for, and the rules by which headers and keys define tables. Each table
remembers how it came to be, since that decides who may add to it: a table is opened at most once, keys
with points in them add only to tables that such keys made, and a table in braces is complete.
-/

namespace ContractCompiler.Toml

/-- How a table came to be. -/
inductive TableKind where
  /-- Written in braces, and complete. -/
  | closed
  /-- Opened by a header of its own. -/
  | opened
  /-- Named on the way to the table of a header. -/
  | passed
  /-- Named on the way to the key of a pair. -/
  | dotted
deriving DecidableEq, Repr

/-- A value of a document. Floats and points in time are kept as they are written. -/
inductive Value where
  | text (s : String)
  | integer (n : Int)
  | float (spelling : String)
  | boolean (b : Bool)
  | moment (spelling : String)
  | array (items : List Value)
  | table (kind : TableKind) (entries : List (String × Value))
  /-- Tables opened one after the other under the same header in double brackets. -/
  | tables (elements : List (List (String × Value)))
deriving Repr

/-- The keys and values of a table, in the order in which they were defined. -/
abbrev Entries := List (String × Value)

/-- Why a text is not a TOML document. -/
inductive Fault where
  | malformed
  | outOfRange
  | tooDeep
  | duplicate (key : String)
  | notATable (key : String)
deriving DecidableEq, Repr

/-- The wording of a fault. -/
def Fault.message : Fault → String
  | .malformed => "malformed TOML"
  | .outOfRange => "value out of range"
  | .tooDeep => "nested too deeply"
  | .duplicate key => "duplicate key `" ++ key ++ "`"
  | .notATable key => "`" ++ key ++ "` is not a table"

namespace Entries

/-- The value of a key. -/
def get? (es : Entries) (key : String) : Option Value := List.lookup key es

/-- The entries with the value of a key replaced, or added at the end. -/
def put (key : String) (value : Value) : Entries → Entries
  | [] => [(key, value)]
  | (k, v) :: es => if k = key then (k, value) :: es else (k, v) :: put key value es

end Entries

/-- A step from a table into one under it. -/
inductive Step where
  /-- A part of a header. -/
  | header (key : String)
  /-- A part of a key with points, but for the last two. -/
  | dotted (key : String)
  /-- The part of a key with points that names the table of the pair. -/
  | holder (key : String)
deriving DecidableEq, Repr

namespace Step

/-- The key of a step. -/
def key : Step → String
  | .header key | .dotted key | .holder key => key

/-- Enters the value found under the key of a step: the entries to go on with, and the value they make
once changed. Of tables under one header the last is entered. -/
def enter : Step → Option Value → Except Fault (Entries × (Entries → Value))
  | .header _, none => .ok ([], .table .passed)
  | .dotted _, none | .holder _, none => .ok ([], .table .dotted)
  | .header key, some (.table kind es) =>
    if kind = .closed then .error (.notATable key) else .ok (es, .table kind)
  | .dotted key, some (.table kind es) =>
    if kind = .passed || kind = .dotted then .ok (es, .table kind) else .error (.duplicate key)
  | .holder key, some (.table kind es) =>
    if kind = .dotted then .ok (es, .table kind) else .error (.duplicate key)
  | .header _, some (.tables elements) | .dotted _, some (.tables elements) =>
    .ok (elements.getLast?.getD [], fun es => .tables (elements.dropLast ++ [es]))
  | step, some _ => .error (.notATable step.key)

end Step

namespace Entries

/-- Changes the entries at the end of a path of steps. -/
def changeAt (change : Entries → Except Fault Entries) : List Step → Entries → Except Fault Entries
  | [], es => change es
  | step :: steps, es => do
    let (inner, rebuild) ← step.enter (es.get? step.key)
    let inner ← changeAt change steps inner
    return es.put step.key (rebuild inner)

/-- Adds a pair whose key is new. -/
def add (key : String) (value : Value) (es : Entries) : Except Fault Entries :=
  match es.get? key with
  | none => .ok (es.put key value)
  | some _ => .error (.duplicate key)

/-- Opens a table, which may so far only have been passed. -/
def openTable (key : String) (es : Entries) : Except Fault Entries :=
  match es.get? key with
  | none => .ok (es.put key (.table .opened []))
  | some (.table .passed inner) => .ok (es.put key (.table .opened inner))
  | some _ => .error (.duplicate key)

/-- Opens one more table under a header in double brackets. -/
def openElement (key : String) (es : Entries) : Except Fault Entries :=
  match es.get? key with
  | none => .ok (es.put key (.tables [[]]))
  | some (.tables elements) => .ok (es.put key (.tables (elements ++ [[]])))
  | some _ => .error (.duplicate key)

end Entries

/-- A key with at least one part: the parts before the last, and the last. -/
structure Key where
  path : List String
  last : String
deriving DecidableEq, Repr

namespace Key

/-- All parts of a key. -/
def parts (k : Key) : List String := k.path ++ [k.last]

/-- The steps to the table of a pair with this key. -/
def steps (k : Key) : List Step :=
  match k.path.getLast? with
  | none => []
  | some holder => k.path.dropLast.map .dotted ++ [.holder holder]

end Key

/-- Adds a pair under a key that may have points, after the steps `outer`. -/
def Entries.addPair (outer : List Step) (key : Key) (value : Value) (es : Entries) :
    Except Fault Entries :=
  es.changeAt (Entries.add key.last value) (outer ++ key.steps)

/-- The table in braces with the given pairs. -/
def Value.ofPairs (pairs : List (Key × Value)) : Except Fault Value := do
  let es ← pairs.foldlM (fun (es : Entries) pair => es.addPair [] pair.1 pair.2) []
  return .table .closed es

/-- A statement of a document. -/
inductive Statement where
  | header (key : Key)
  | elementHeader (key : Key)
  | pair (key : Key) (value : Value)

/-- A document as far as it has been built: its entries and the header that pairs now come under. -/
structure Draft where
  root : Entries
  current : List String

namespace Draft

/-- The draft after one more statement. -/
def extend (d : Draft) : Statement → Except Fault Draft
  | .header key => do
    let root ← d.root.changeAt (Entries.openTable key.last) (key.path.map .header)
    return ⟨root, key.parts⟩
  | .elementHeader key => do
    let root ← d.root.changeAt (Entries.openElement key.last) (key.path.map .header)
    return ⟨root, key.parts⟩
  | .pair key value => do
    let root ← d.root.addPair (d.current.map .header) key value
    return ⟨root, d.current⟩

end Draft

/-- The entries of the document with the given statements. -/
def Entries.ofStatements (statements : List Statement) : Except Fault Entries := do
  let draft ← statements.foldlM Draft.extend ⟨[], []⟩
  return draft.root

end ContractCompiler.Toml
