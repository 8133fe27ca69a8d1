import ContractCompiler.Contract.Members
import ContractCompiler.Output.Files
import ContractCompiler.Text.Quoted

/-!
# Sinks

A sink takes finished contracts, one at a time, and may refuse one. What a sink holds is a value, so
that a run of the compiler is a function of it.
-/

namespace ContractCompiler

/-- What happens when a contract is handed to a sink. -/
structure Emission (σ : Type) where
  /-- What the sink holds afterwards, also if it refused the contract. -/
  state : σ
  /-- Why the sink refused the contract, if it did. -/
  failure : Option String
  journal : Journal

/-- A place for finished contracts, with what it holds of type `σ`. -/
structure Sink (σ : Type) where
  emit : σ → Contract → Emission σ

/-- Bytes written so far, and how many there may be. -/
structure Buffer where
  capacity : Option Nat
  bytes : List UInt8

namespace Buffer

/-- A buffer with nothing in it. -/
def empty (capacity : Option Nat) : Buffer := ⟨capacity, []⟩

/-- Writes as many bytes as there is room for, and says whether that was all of them. -/
def write (b : Buffer) (bytes : List UInt8) : Buffer × Bool :=
  match b.capacity with
  | none => ({ b with bytes := b.bytes ++ bytes }, true)
  | some capacity =>
    let room := capacity - b.bytes.length
    ({ b with bytes := b.bytes ++ bytes.take room }, bytes.length ≤ room)

/-- Writes pieces one after the other up to the first that there is not enough room for, and says
whether that was all of them. -/
def writeAll (b : Buffer) : List (List UInt8) → Buffer × Bool
  | [] => (b, true)
  | piece :: pieces =>
    let (b, complete) := b.write piece
    if complete then b.writeAll pieces else (b, false)

/-- The text in a buffer; a character cut off at the end is replaced. -/
def text (b : Buffer) : String := Text.decodeLossy b.bytes

end Buffer

/-- One contract as a line of JSON, without its line break. -/
def Contract.record (c : Contract) : String :=
  "\x7b\"contract\":" ++ Text.jsonString c.name ++ ",\"source\":" ++ Text.jsonString c.text ++ "\x7d"

/-- A directory contracts are written to, with the paths written so far. -/
structure DirOutput where
  files : Files
  written : List String

namespace Sink

/-- Keeps contracts in a list. -/
def list : Sink (List Contract) where
  emit held c := ⟨held ++ [c], none, []⟩

/-- Keeps contracts in a list and refuses all once it holds `limit`. -/
def limited (limit : Nat) : Sink (List Contract) where
  emit held c := if limit ≤ held.length then ⟨held, some "closed", []⟩ else ⟨held ++ [c], none, []⟩

/-- Writes `render` of each contract into a buffer, and then a line break. -/
def lines (render : Contract → String) : Sink Buffer where
  emit buffer c :=
    let (buffer, complete) := buffer.writeAll [Text.utf8Bytes (render c), Text.utf8Bytes "\n"]
    ⟨buffer, if complete then none else some "failed to write whole buffer", []⟩

/-- Writes the text of each contract and a line break into a buffer. -/
def writer : Sink Buffer := lines Contract.text

/-- Writes each contract as a line of JSON into a buffer. -/
def jsonLines : Sink Buffer := lines Contract.record

/-- Writes each contract to a file of its name in the directory `dir`. -/
def directory (dir : String) : Sink DirOutput where
  emit out c :=
    let path := joinPath dir (c.name ++ ".sol")
    ⟨⟨out.files.write path (Text.utf8Bytes (c.text ++ "\n")), out.written ++ [path]⟩, none,
      [.writing path]⟩

/-- Takes every contract and keeps none. -/
def discard : Sink Unit where
  emit _ _ := ⟨(), none, []⟩

end Sink

end ContractCompiler
