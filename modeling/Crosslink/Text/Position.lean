import Crosslink.Text.Basic

/-!
# Lines and columns

A place in a text is told to people as a line and a column, both counted from one, the column in
bytes. `Position.ofOffset` goes from a byte offset to a position and `offsetOf` back.
-/

namespace Crosslink

/-- A place in a text: its line and, in bytes, its column, both counted from one. -/
structure Position where
  line : Nat
  column : Nat
  deriving DecidableEq, Repr

namespace Position

/-- The position reached from `p` by going `n` bytes on. -/
def advance (p : Position) : Nat → Text → Position
  | _, [] => p
  | n, c :: cs =>
    if n = 0 then p
    else if c = '\n' then advance ⟨p.line + 1, 1⟩ (n - 1) cs
    else if n < c.utf8Size then ⟨p.line, p.column + n⟩
    else advance ⟨p.line, p.column + c.utf8Size⟩ (n - c.utf8Size) cs

/-- The position of the byte at `offset`; past the end it is the position of the end. -/
def ofOffset (text : Text) (offset : Nat) : Position := advance ⟨1, 1⟩ offset text

end Position

/-- The byte offset at which line `skip + 1` begins, and the text from there on, for a text that
begins at byte `start`. -/
def lineBegin (start : Nat) : Nat → Text → Option (Nat × Text)
  | 0, text => some (start, text)
  | _ + 1, [] => none
  | skip + 1, c :: cs =>
    if c = '\n' then lineBegin (start + 1) skip cs
    else lineBegin (start + c.utf8Size) (skip + 1) cs

/-- The byte offset of a line and a column. A line or column zero counts as the first, a column past
the end of its line stands for that end, and a line past the last for the end of the text. -/
def offsetOf (text : Text) (line column : Nat) : Nat :=
  match lineBegin 0 (line - 1) text with
  | none => Text.width text
  | some (start, rest) => start + min (column - 1) (Text.width (rest.takeWhile (· ≠ '\n')))

end Crosslink
