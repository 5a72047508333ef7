/-!
# Source spans

Every node of a script carries the half-open range of source positions it was written at. The
compiler never looks at source text; spans only travel to diagnostics.
-/

namespace Wirescript

/-- The half-open range `start..stop` of source positions. Nothing forces `start ≤ stop`. -/
structure Span where
  start : Nat
  stop : Nat
  deriving DecidableEq, Repr, Inhabited

namespace Span

/-- The span of nodes that no source text stands for. -/
def none : Span := ⟨0, 0⟩

/-- The number of positions covered; zero when the ends are the wrong way round. -/
def length (s : Span) : Nat := s.stop - s.start

def isEmpty (s : Span) : Bool := s.length == 0

/-- The smallest span that covers both. -/
def join (s t : Span) : Span := ⟨min s.start t.start, max s.stop t.stop⟩

/-- Position `p` lies inside the span. -/
def covers (s : Span) (p : Nat) : Bool := decide (s.start ≤ p) && decide (p < s.stop)

def render (s : Span) : String := s!"{s.start}..{s.stop}"

end Span

end Wirescript
