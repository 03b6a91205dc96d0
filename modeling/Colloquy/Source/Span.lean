/-!
# Spans of source text

A span is a range of byte offsets into a script's source, kept as its start and its length.
-/

namespace Colloquy

/-- A range of byte offsets. -/
structure Span where
  start : Nat
  length : Nat
  deriving DecidableEq, Repr, Inhabited

namespace Span

/-- The offset just past a span. -/
def stop (s : Span) : Nat := s.start + s.length

/-- The span from one offset up to another; it is empty when the second is not beyond the first. -/
def range (start stop : Nat) : Span := ⟨start, stop - start⟩

/-- The span of one byte. -/
def single (offset : Nat) : Span := ⟨offset, 1⟩

/-- Whether a span has no bytes. -/
def isEmpty (s : Span) : Bool := s.length = 0

/-- The smallest span that covers two spans. -/
def cover (s t : Span) : Span := range (min s.start t.start) (max s.stop t.stop)

theorem stop_range {start stop : Nat} (h : start ≤ stop) : (range start stop).stop = stop := by
  simp only [Span.stop, range]; omega

theorem start_cover (s t : Span) : (s.cover t).start = min s.start t.start := rfl

theorem stop_cover (s t : Span) : (s.cover t).stop = max s.stop t.stop := by
  simp only [cover, range, stop]; omega

end Span

/-- A part of a script together with the span it was written at. -/
structure Spanned (α : Type) where
  val : α
  span : Span
  deriving DecidableEq, Repr

end Colloquy
