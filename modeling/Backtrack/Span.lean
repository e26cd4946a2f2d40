import Backtrack.Source

/-!
# Spans

A span is a range of source positions that never ends before it starts.
-/

namespace Backtrack

/-- A range of source positions. -/
structure Span where
  start : Nat
  stop : Nat
  start_le_stop : start ≤ stop := by omega
  deriving DecidableEq, Repr

namespace Span

/-- The span from `start` to `stop`, empty at `start` if `stop` lies before it. -/
def new (start stop : Nat) : Span := ⟨start, max start stop, Nat.le_max_left _ _⟩

instance : Inhabited Span := ⟨new 0 0⟩

/-- The number of positions in the span. -/
def len (s : Span) : Nat := s.stop - s.start

/-- A span without positions. -/
def isEmpty (s : Span) : Bool := s.start == s.stop

/-- The order of spans: by start, then by end. -/
def order (s t : Span) : Ordering := (compare s.start t.start).then (compare s.stop t.stop)

/-- The symbols that the span covers, if it lies within the source and between symbols. -/
def of? {σ : Type} (s : Span) (src : Source σ) : Option (List σ) := src.slice? s.start s.stop

/-- The span spelled out for a diagnostic. -/
def inspect (s : Span) : String :=
  "Span \x7b start: " ++ toString s.start ++ ", end: " ++ toString s.stop ++ " \x7d"

end Span

end Backtrack
