import Crosslink.Span

/-!
# Splices

An edit of a text is a set of splices, each putting a text in the place of a span. `apply` carries
out a whole set at once: it orders the splices by their place, refuses a set in which two of them
touch the same bytes, and copies every byte outside the splices unchanged.
-/

namespace Crosslink

/-- One change of a text. -/
inductive Splice where
  /-- Put a text at an offset. -/
  | insert (offset : Nat) (text : Text)
  /-- Drop the bytes of a span. -/
  | delete (span : Span)
  /-- Put a text in the place of the bytes of a span. -/
  | replace (span : Span) (text : Text)
  deriving DecidableEq, Repr

/-- Why a set of splices cannot be carried out. -/
inductive SpliceError where
  /-- Two splices touch the same bytes. -/
  | overlap (first second : Span)
  /-- A splice reaches past the end of a text of `length` bytes, or into a character. -/
  | outOfBounds (span : Span) (length : Nat)
  deriving DecidableEq, Repr

namespace SpliceError

/-- The error in words. -/
def message : SpliceError → Text
  | overlap first second => "overlapping splices at " ++ first.display ++ " and " ++ second.display
  | outOfBounds span length =>
    "splice " ++ span.display ++ " is out of bounds for text of " ++ Text.ofNat length ++ " bytes"

end SpliceError

namespace Splice

/-- The bytes a splice takes the place of; an insertion takes the place of none. -/
def span : Splice → Span
  | insert offset _ => Span.point offset
  | delete span => span
  | replace span _ => span

/-- The text a splice puts in; a deletion puts in none. -/
def text : Splice → Text
  | insert _ text => text
  | delete _ => []
  | replace _ text => text

/-- Splices are carried out in the order of their starts, then of their ends. -/
def le (a b : Splice) : Bool :=
  a.span.start < b.span.start || (a.span.start = b.span.start && a.span.stop ≤ b.span.stop)

/-- The splices in the order of their places; those of one span keep their order. -/
def ordered (splices : List Splice) : List Splice := splices.mergeSort le

/-- True when a splice lies within a text and cuts no character. -/
def fits (source : Text) (s : Splice) : Bool :=
  s.span.stop ≤ Text.width source && Text.isBoundary s.span.start source
    && Text.isBoundary s.span.stop source

/-- True when two neighbours in the order of places cannot both be carried out: they share a byte,
or the second is empty and lies strictly inside the first. -/
def clashes (a b : Span) : Bool :=
  a.overlaps b || (b.isEmpty && a.start < b.start && b.start < a.stop)

/-- The first two neighbours of a list that clash. -/
def firstClash : List Splice → Option (Span × Span)
  | a :: b :: rest =>
    if clashes a.span b.span then some (a.span, b.span) else firstClash (b :: rest)
  | _ => none

/-- Carry out splices that stand in order and do not clash on `source`, of which the bytes before
`cursor` are already used up. -/
def weave (source : Text) (cursor : Nat) : List Splice → Text
  | [] => Text.after cursor source
  | s :: rest =>
    Text.slice cursor s.span.start source ++ s.text ++ weave source s.span.stop rest

/-- Carry out a set of splices. -/
def apply (source : Text) (splices : List Splice) : Except SpliceError Text :=
  match (ordered splices).find? (fun s => !fits source s) with
  | some s => .error (.outOfBounds s.span (Text.width source))
  | none =>
    match firstClash (ordered splices) with
    | some (a, b) => .error (.overlap a b)
    | none => .ok (weave source 0 (ordered splices))

end Splice

end Crosslink
