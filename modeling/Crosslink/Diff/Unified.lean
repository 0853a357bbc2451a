import Crosslink.Text.Basic
import Crosslink.Diff.Script

/-!
# Unified diffs

The changes between two versions of a file as a unified diff: hunks of changed lines with up to
three unchanged lines around them, each under a header that tells where it stands in either version.
-/

namespace Crosslink.Diff

/-- The number of unchanged lines shown on either side of a change. -/
def context : Nat := 3

/-- The ranges of steps that make up the hunks, given the number `index` of the first step and the
number `total` of all: every change with its context, ranges that meet joined. `open?` is the range
being built. -/
def hunks (total : Nat) (open? : Option (Nat × Nat)) (index : Nat) :
    List (Edit Text) → List (Nat × Nat)
  | [] => open?.toList
  | e :: rest =>
    if e.isKeep then hunks total open? (index + 1) rest
    else
      let start := index - context
      let stop := min (index + 1 + context) total
      match open? with
      | some (s, t) =>
        if start ≤ t then hunks total (some (s, max t stop)) (index + 1) rest
        else (s, t) :: hunks total (some (start, stop)) (index + 1) rest
      | none => hunks total (some (start, stop)) (index + 1) rest

/-- The mark a step's line is written with. -/
def mark : Edit Text → Char
  | .keep _ => ' '
  | .drop _ => '-'
  | .add _ => '+'

/-- The line a step is about. -/
def line : Edit Text → Text
  | .keep l | .drop l | .add l => l

/-- A step as the diff shows it. A line that no line feed ends is marked as such. -/
def renderEdit (e : Edit Text) : Text :=
  let l := line e
  let shown := mark e :: Text.trimEnd (· = '\n') l ++ "\n"
  if l.getLast? = some '\n' then shown else shown ++ "\\ No newline at end of file\n"

/-- Where a hunk stands in one version: its first line and its number of lines, given the number of
lines before it. An empty part is placed after the line before it. -/
def placement (linesBefore count : Nat) : Text :=
  let first := if count = 0 then linesBefore else linesBefore + 1
  Text.ofNat first ++ "," ++ Text.ofNat count

/-- The hunk made up of the steps from `start` up to `stop`. -/
def renderHunk (script : List (Edit Text)) (start stop : Nat) : Text :=
  let earlier := script.take start
  let steps := (script.drop start).take (stop - start)
  "@@ -" ++ placement (earlier.filterMap Edit.before?).length (steps.filterMap Edit.before?).length
    ++ " +" ++ placement (earlier.filterMap Edit.after?).length (steps.filterMap Edit.after?).length
    ++ " @@\n" ++ steps.flatMap renderEdit

/-- The unified diff of two versions of the file named `path`; empty when they are equal. -/
def unified (path old new : Text) : Text :=
  if old = new then []
  else
    let script := Script.between (Text.lines old) (Text.lines new)
    "--- a/" ++ path ++ "\n+++ b/" ++ path ++ "\n"
      ++ (hunks script.length none 0 script).flatMap fun (s, t) => renderHunk script s t

end Crosslink.Diff
