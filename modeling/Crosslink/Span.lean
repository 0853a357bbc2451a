import Crosslink.Text.Basic

/-!
# Spans

A span is the part of a text between two byte offsets, the first of them included.
-/

namespace Crosslink

/-- The bytes from `start` up to, but not including, `stop`. -/
structure Span where
  start : Nat
  stop : Nat
  deriving DecidableEq, Repr, Inhabited

namespace Span

/-- The empty span at an offset. -/
def point (offset : Nat) : Span := ⟨offset, offset⟩

/-- The span between two offsets, refused when they are the wrong way round. -/
def between? (start stop : Nat) : Option Span :=
  if start ≤ stop then some ⟨start, stop⟩ else none

/-- The number of bytes covered. -/
def length (s : Span) : Nat := s.stop - s.start

/-- True when no byte is covered. -/
def isEmpty (s : Span) : Bool := s.start = s.stop

/-- True when two spans share a byte. Spans that only touch do not. -/
def overlaps (a b : Span) : Bool := a.start < b.stop && b.start < a.stop

/-- True when every byte of `b` lies in `a`. -/
def contains (a b : Span) : Bool := a.start ≤ b.start && b.stop ≤ a.stop

/-- The text a span covers. -/
def slice (s : Span) (text : Text) : Text := Text.slice s.start s.stop text

/-- The span as people read it: `[start, stop)`. -/
def display (s : Span) : Text :=
  "[" ++ Text.ofNat s.start ++ ", " ++ Text.ofNat s.stop ++ ")"

end Span

end Crosslink
