/-!
# Spans

A span is a range of byte offsets into the UTF-8 form of a source text. Every token and every node of
the tree carries one.
-/

namespace ContractCompiler

/-- The bytes from `start` up to, and not including, `stop`. -/
structure Span where
  start : Nat
  stop : Nat
deriving DecidableEq, Repr, Inhabited

namespace Span

/-- The span from the start of `a` to the end of whichever of the two ends later. -/
def through (a b : Span) : Span := ⟨a.start, max b.stop a.stop⟩

/-- The written form `start..stop`. -/
def text (s : Span) : String := toString s.start ++ ".." ++ toString s.stop

@[simp] theorem through_start (a b : Span) : (a.through b).start = a.start := rfl

@[simp] theorem through_stop (a b : Span) : (a.through b).stop = max b.stop a.stop := rfl

end Span

end ContractCompiler
