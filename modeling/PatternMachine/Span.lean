/-!
# Spans

A stretch of a text is given by the byte offsets of its two ends.
-/

namespace PatternMachine

/-- The stretch from byte `start` up to, and not including, byte `stop`. -/
structure Span where
  start : Nat
  stop : Nat
deriving DecidableEq

namespace Span

/-- The empty stretch at byte `offset`. -/
def point (offset : Nat) : Span :=
  ⟨offset, offset⟩

/-- The span as text, `start..stop`. -/
def render (s : Span) : String :=
  toString s.start ++ ".." ++ toString s.stop

end Span

end PatternMachine
