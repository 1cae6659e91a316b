namespace Stencil

/-- A range of byte offsets, from `start` up to and without `stop`. -/
structure Span where
  start : Nat
  stop : Nat
  deriving DecidableEq, Repr

namespace Span

def length (span : Span) : Nat :=
  span.stop - span.start

def isEmpty (span : Span) : Bool :=
  span.start == span.stop

def covers (outer inner : Span) : Bool :=
  outer.start ≤ inner.start && inner.stop ≤ outer.stop

def rebase (span : Span) (origin : Nat) : Span :=
  ⟨span.start - origin, span.stop - origin⟩

end Span

end Stencil
