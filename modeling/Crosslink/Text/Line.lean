import Crosslink.Text.Blank
import Crosslink.Text.Basic

/-!
# The layout of lines

What an edit needs to know about the line a byte offset falls on: where the line starts and ends,
how it is indented, and whether anything but blanks stands before or after the offset. An offset
past the end of the text stands for its end.
-/

namespace Crosslink.Line

open Text

/-- The part of the line holding `offset` that stands before it. -/
def head (text : Text) (offset : Nat) : Text :=
  ((before offset text).reverse.takeWhile (· ≠ '\n')).reverse

/-- The part of the line holding `offset` that stands at or after it, without the line feed. -/
def rest (text : Text) (offset : Nat) : Text := (after offset text).takeWhile (· ≠ '\n')

/-- The offset of the first byte of the line holding `offset`. -/
def start (text : Text) (offset : Nat) : Nat :=
  width (before offset text) - width (head text offset)

/-- The offset of the line feed ending the line that holds `offset`, or the end of the text. -/
def stop (text : Text) (offset : Nat) : Nat :=
  width (before offset text) + width (rest text offset)

/-- The offset just past the line holding `offset`, its line feed included. -/
def next (text : Text) (offset : Nat) : Nat :=
  let e := stop text offset
  if e < width text then e + 1 else e

/-- The spaces and tabs that start the line holding `offset`. -/
def indentation (text : Text) (offset : Nat) : Text :=
  (after (start text offset) text).takeWhile isIndent

/-- True when only spaces and tabs stand before `offset` on its line. -/
def blankBefore (text : Text) (offset : Nat) : Bool := (head text offset).all isIndent

/-- True when only spaces, tabs and carriage returns stand after `offset` on its line. -/
def blankAfter (text : Text) (offset : Nat) : Bool :=
  (rest text offset).all fun c => isIndent c || c = '\r'

/-- The offset of the first byte at or after `offset` that is neither space nor tab. -/
def skipBlanks (text : Text) (offset : Nat) : Nat :=
  width (before offset text) + width ((after offset text).takeWhile isIndent)

/-- How the text ends its lines, told by the first line: a line feed, with a carriage return before
it or without. -/
def ending (text : Text) : Text :=
  if text.any (· = '\n') && (text.takeWhile (· ≠ '\n')).getLast? = some '\r' then "\r\n" else "\n"

end Crosslink.Line
