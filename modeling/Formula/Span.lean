/-!
Spans of source text: half-open intervals `start..stop` of byte offsets.

* `Span.merge`: the smallest interval that covers two spans; `start_merge` and
  `stop_merge` read off its ends.
* `Span.length`: the number of bytes covered, `0` for a span whose ends are
  reversed.
-/

namespace Formula

/-- A half-open interval of byte offsets. The ends need not be ordered. -/
structure Span where
  /-- Offset of the first byte. -/
  start : Nat
  /-- Offset one past the last byte. -/
  stop : Nat
deriving DecidableEq, Repr

namespace Span

/-- The empty span at one offset. -/
def point (offset : Nat) : Span := ⟨offset, offset⟩

/-- The smallest span that covers both. -/
def merge (a b : Span) : Span := ⟨min a.start b.start, max a.stop b.stop⟩

/-- Number of bytes covered. -/
def length (s : Span) : Nat := s.stop - s.start

/-- A span is empty when it covers no byte. -/
def isEmpty (s : Span) : Bool := s.length == 0

/-- Written `start..stop`. -/
def text (s : Span) : String := toString s.start ++ ".." ++ toString s.stop

@[simp] theorem start_merge (a b : Span) : (a.merge b).start = min a.start b.start := rfl

@[simp] theorem stop_merge (a b : Span) : (a.merge b).stop = max a.stop b.stop := rfl

end Span

end Formula
