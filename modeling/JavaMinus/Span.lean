/-!
# Source spans

A span is a byte range of the source text together with the line and column of its first byte.
Offsets are 64-bit words and positions 32-bit words, the ranges in which the document form writes
them. Nothing here requires `start ≤ stop`: a span is read as it was written, and a reversed one
has length zero.
-/

namespace JavaMinus

/-- A byte range plus the line and column (counted from one) of its start. -/
structure Span where
  start : UInt64 := 0
  stop : UInt64 := 0
  line : UInt32 := 0
  column : UInt32 := 0
deriving DecidableEq, Inhabited

namespace Span

/-- A span that carries a position only. -/
def ofPosition (line column : UInt32) : Span := ⟨0, 0, line, column⟩

/-- The number of bytes covered; zero when the span ends before it starts. -/
def length (s : Span) : Nat := s.stop.toNat - s.start.toNat

/-- A span is empty when it ends where it starts; a reversed one is not. -/
def isEmpty (s : Span) : Bool := s.start == s.stop

/-- The least range that covers both spans, positioned at the one that starts first; of two spans
with one start the receiver gives the position. -/
def merge (s t : Span) : Span :=
  let first := if s.start ≤ t.start then s else t
  { start := min s.start t.start, stop := max s.stop t.stop, line := first.line,
    column := first.column }

end Span

end JavaMinus
