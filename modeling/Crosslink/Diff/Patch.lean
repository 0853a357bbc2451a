import Crosslink.Diff.Unified

/-!
# Patches

What a unified diff says when it is read: the hunks it is made of, each with the place and the
number of its lines in either version, and how they turn the old version into the new one. A hunk
is carried out only where its header and its unchanged and dropped lines agree with the old version.
-/

namespace Crosslink.Diff

/-- A part of a version: the number its header gives for the first line, and the number of lines. -/
structure Part where
  first : Nat
  count : Nat
  deriving DecidableEq, Repr

/-- The number of lines that stand before a part; an empty part is placed after the line before
it. -/
def Part.before (p : Part) : Nat := if p.count = 0 then p.first else p.first - 1

/-- A hunk of a diff. -/
structure Hunk where
  old : Part
  new : Part
  steps : List (Edit Text)
  deriving DecidableEq, Repr

namespace Patch

/-! ## Reading -/

/-- What follows `part` in a text that begins with it. -/
def expect (part text : Text) : Option Text :=
  if part <+: text then some (text.drop part.length) else none

/-- The decimal number at the start of a text, and what follows it. -/
def readNumber (text : Text) : Option (Nat × Text) :=
  if text.takeWhile Char.isDigit = [] then none
  else some (Nat.ofDigitChars 10 (text.takeWhile Char.isDigit) 0, text.dropWhile Char.isDigit)

/-- The two numbers of a part at the start of a text, and what follows them. -/
def readPart (text : Text) : Option (Part × Text) := do
  let (first, text) ← readNumber text
  let (count, text) ← readNumber (← expect "," text)
  return (⟨first, count⟩, text)

/-- The header of a hunk. -/
def readHeader (line : Text) : Option (Part × Part) := do
  let (old, rest) ← readPart (← expect "@@ -" line)
  let (new, rest) ← readPart (← expect " +" rest)
  if rest = " @@\n".toList then some (old, new) else none

/-- The line that says of the line before it that no line feed ends it. -/
def bareMark : Text := "\\ No newline at end of file\n"

/-- The step a line shows; `bare` tells that no line feed ends what it is about. -/
def readStep (bare : Bool) : Text → Option (Edit Text)
  | [] => none
  | m :: shown =>
    let text := if bare then shown.dropLast else shown
    if m = ' ' then some (.keep text)
    else if m = '-' then some (.drop text)
    else if m = '+' then some (.add text)
    else none

/-- What lines from some place on say: the steps up to the next header, the hunks from there on, and
whether the line before the place has no line feed. -/
structure Body where
  bare : Bool := false
  steps : List (Edit Text) := []
  hunks : List Hunk := []
  deriving DecidableEq, Repr

/-- A line in front of lines that have been read. -/
def Body.push (line : Text) (b : Body) : Option Body :=
  if line = bareMark then if b.bare then none else some { b with bare := true }
  else match readHeader line with
    | some (old, new) => if b.bare then none else some ⟨false, [], ⟨old, new, b.steps⟩ :: b.hunks⟩
    | none => (readStep b.bare line).map fun e => ⟨false, e :: b.steps, b.hunks⟩

/-- The lines of a diff below its first two. -/
def readBody : List Text → Option Body
  | [] => some {}
  | line :: rest => (readBody rest).bind (Body.push line)

/-- The two lines at the top of the diff of the file named `path`. -/
def title (path : Text) : Text := "--- a/" ++ path ++ "\n+++ b/" ++ path ++ "\n"

/-- The hunks of the diff of the file named `path`. -/
def readHunks (path diff : Text) : Option (List Hunk) := do
  let body ← readBody (Text.lines (← expect (title path) diff))
  if body.bare ∨ body.steps ≠ [] then none else some body.hunks

/-! ## Carrying out -/

/-- Carry out hunks on the lines of the old version that are left when `seen` of them are used up
and `made` lines of the new version are there. -/
def applyHunks (seen made : Nat) (old : List Text) : List Hunk → Option (List Text)
  | [] => some old
  | h :: rest =>
    let kept := h.old.before - seen
    let dropped := h.steps.filterMap Edit.before?
    let added := h.steps.filterMap Edit.after?
    if seen ≤ h.old.before ∧ kept ≤ old.length ∧ made + kept = h.new.before ∧
        dropped.length = h.old.count ∧ added.length = h.new.count ∧ dropped <+: old.drop kept then
      (applyHunks (seen + kept + dropped.length) (made + kept + added.length)
        (old.drop (kept + dropped.length)) rest).map fun later => old.take kept ++ added ++ later
    else none

end Patch

/-- The new version of the file named `path` that a diff makes of an old one. -/
def patch (path diff old : Text) : Option Text :=
  if diff = [] then some old
  else do
    let made ← Patch.applyHunks 0 0 (Text.lines old) (← Patch.readHunks path diff)
    return made.flatten

end Crosslink.Diff
