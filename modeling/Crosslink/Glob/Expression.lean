import Crosslink.Glob
import Crosslink.Text.Quoted

/-!
# Regular expressions of patterns

A pattern of the form `extension` or `general` is carried out as a regular expression over bytes.
Such an expression may be nested only so deep, and its automaton may take only so much room. Both
are read off the elements of the pattern, and so is the text of the expression, which is told when
the pattern is refused.

Patterns that ask for an extension are carried out one by one, all general ones together.
-/

namespace Crosslink.Glob

/-! ## Text -/

/-- The characters that have a meaning in expressions. -/
def specialChars : Text := "\\.+*?()|[]\x7b\x7d^$#&-~"

/-- A byte in an expression. -/
def byteText (b : UInt8) : Text :=
  let c := Char.ofNat b.toNat
  if 0x80 ≤ b then "\\x" ++ Text.hexadecimal b.toNat
  else if c ∈ specialChars then ['\\', c]
  else [c]

/-- A character in an expression. -/
def charText (c : Char) : Text := (String.utf8EncodeChar c).flatMap byteText

/-- A range of characters in an expression. -/
def rangeText (range : Char × Char) : Text :=
  if range.1 = range.2 then charText range.1 else charText range.1 ++ "-" ++ charText range.2

/-- The expression of an atom. -/
def Atom.text : Atom → Text
  | literal c => charText c
  | any => "."
  | star => ".*"
  | leading => "(?:/?|.*/)"
  | trailing => "/.*"
  | between => "(?:/|/.*/)"
  | oneOf negated ranges =>
    (if negated then "[^" else "[" : String) ++ ranges.flatMap rangeText ++ "]"

mutual

/-- The expression of an element. -/
def Element.text : Element → Text
  | .atom a => a.text
  | .either alternatives =>
    if areAllBlank alternatives then []
    else "(?:" ++ Text.join ['|'] (textsOf alternatives) ++ ")"

/-- The expression of elements one after the other. -/
def textOf : List Element → Text
  | [] => []
  | e :: es => e.text ++ textOf es

/-- The expressions of the alternatives that are not blank. -/
def textsOf : List (List Element) → List Text
  | [] => []
  | alternative :: rest =>
    if areBlank alternative then textsOf rest else textOf alternative :: textsOf rest

end

/-- The expression of a pattern. -/
def expression (g : Glob) : Text := "(?-u)^" ++ textOf g.elements ++ "$"

/-! ## Extent -/

/-- The bytes that a state of an automaton takes. -/
def stateRoom : Nat := 32

/-- The bytes that a range of bytes takes in a state that waits for one. -/
def rangeRoom : Nat := 8

/-- The bytes that a way out takes in a state that has several. -/
def forkRoom : Nat := 4

/-- What counts of an expression. -/
structure Extent where
  /-- The number of its pieces side by side. -/
  pieces : Nat := 0
  /-- The levels of nesting in the deepest of these. -/
  depth : Nat := 0
  /-- The bytes that its automaton takes. -/
  room : Nat := 0
  deriving DecidableEq, Repr

namespace Extent

/-- Two expressions side by side. -/
def beside (a b : Extent) : Extent := ⟨a.pieces + b.pieces, max a.depth b.depth, a.room + b.room⟩

/-- The levels of nesting in a whole expression. To have several pieces is one more. -/
def levels (e : Extent) : Nat := if e.pieces ≤ 1 then e.depth else e.depth + 1

/-- A group of expressions of which one counts. To have a choice is one more level. -/
def group : List Extent → Extent
  | [] => {}
  | [e] => ⟨1, e.levels + 1, e.room⟩
  | es =>
    ⟨1, es.foldl (fun n e => max n e.levels) 0 + 2,
      es.foldl (fun n e => n + e.room + forkRoom) (2 * stateRoom)⟩

/-- Any number of repetitions, or none. -/
def repeated (e : Extent) : Extent := ⟨1, e.levels + 1, e.room + stateRoom + 2 * forkRoom⟩

/-- An expression or nothing. -/
def optional (e : Extent) : Extent := ⟨1, e.levels + 1, e.room + 2 * stateRoom + 2 * forkRoom⟩

/-- One given byte. -/
def byte : Extent := ⟨1, 0, stateRoom⟩

/-- Any one byte. -/
def anyByte : Extent := ⟨1, 0, 2 * stateRoom + rangeRoom⟩

end Extent

/-- The extent of an atom's expression. -/
def Atom.extent : Atom → Extent
  | literal c => ⟨c.utf8Size, 0, c.utf8Size * stateRoom⟩
  | any => .anyByte
  | star => Extent.anyByte.repeated
  | leading => .group [Extent.byte.optional, Extent.anyByte.repeated.beside .byte]
  | trailing => Extent.byte.beside Extent.anyByte.repeated
  | between =>
    .group [.byte, (Extent.byte.beside Extent.anyByte.repeated).beside .byte]
  | oneOf negated ranges =>
    match ranges.flatMap byteRanges with
    | [(low, high)] =>
      ⟨1, 1, if negated then 2 * stateRoom + 2 * rangeRoom
        else if low = high then stateRoom
        else 2 * stateRoom + rangeRoom⟩
    | inside => ⟨1, 2, 2 * stateRoom + inside.length * rangeRoom⟩

mutual

/-- The extent of an element's expression. -/
def Element.extent : Element → Extent
  | .atom a => a.extent
  | .either alternatives => .group (extentsOf alternatives)

/-- The extent of elements one after the other, behind another one. -/
def extentBehind (before : Extent) : List Element → Extent
  | [] => before
  | e :: es => extentBehind (before.beside e.extent) es

/-- The extents of the alternatives that are not blank. -/
def extentsOf : List (List Element) → List Extent
  | [] => []
  | alternative :: rest =>
    if areBlank alternative then extentsOf rest
    else extentBehind {} alternative :: extentsOf rest

end

/-- The extent of a pattern's expression, which begins with a flag and a mark for the start and ends
with a mark for the end. Its automaton also notes where a match starts and ends, and that there is
one. -/
def extent (g : Glob) : Extent := (extentBehind {} g.elements).beside ⟨3, 0, 5 * stateRoom⟩

/-! ## Limits -/

/-- The levels of nesting that an expression may have. -/
def depthLimit : Nat := 250

/-- The bytes that an automaton may take. -/
def roomLimit : Nat := 10485760

/-- Why expressions cannot be carried out. -/
inductive LimitDefect where
  /-- The expression at this place among them is nested too deep. -/
  | tooDeep (place : Nat)
  /-- The automaton for all of them takes too much room. -/
  | tooLarge
  deriving DecidableEq, Repr

/-- The defect in words. -/
def LimitDefect.message : LimitDefect → Text
  | tooDeep place => "error parsing pattern " ++ Text.ofNat place
  | tooLarge => "error building NFA"

/-- What is wrong with the expressions of these extents when they are carried out together. -/
def limitDefect? (extents : List Extent) : Option LimitDefect :=
  match extents.findIdx? fun e => depthLimit < e.levels with
  | some place => some (.tooDeep place)
  | none =>
    if roomLimit < (Extent.group extents).room + stateRoom then some .tooLarge else none

/-- Why patterns that are each in order cannot be used together. -/
structure SetDefect where
  /-- The expression that is to blame, when it is one that is carried out by itself. -/
  expression? : Option Text
  defect : LimitDefect
  deriving DecidableEq, Repr

/-- The defect in words. -/
def SetDefect.message (d : SetDefect) : Text :=
  match d.expression? with
  | some e => "error parsing glob '" ++ e ++ "': " ++ d.defect.message
  | none => d.defect.message

/-- What is wrong with patterns as a set. -/
def setDefect? (globs : List Glob) : Option SetDefect :=
  let alone := (globs.filter (·.form = .extension)).findSome? fun g =>
    (limitDefect? [g.extent]).map fun d => ⟨some g.expression, d⟩
  alone.or <|
    (limitDefect? ((globs.filter (·.form = .general)).map extent)).map fun d => ⟨none, d⟩

end Crosslink.Glob
