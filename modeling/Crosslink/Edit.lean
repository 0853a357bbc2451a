import Crosslink.Splice
import Crosslink.Text.Line

/-!
# Edits that keep the layout

How declarations are taken out of a text and put into it: out of a list together with the comma
that goes with them, out of a line together with the line when nothing else stands on it, and into
a line of their own with the indentation and line ending of the text around it.
-/

namespace Crosslink.Edit

/-- The deletions that take the flagged items out of a list whose items have these spans. An item
that a kept one follows goes up to the start of the next item; the run after the last kept item
goes from the end of that item. At least one item has to be kept. -/
def dropBeforeKept : List (Span × Bool) → List Splice
  | (s, flag) :: (next, flag') :: rest =>
    if ((next, flag') :: rest).any (!·.2) then
      let later := dropBeforeKept ((next, flag') :: rest)
      if flag then .delete ⟨s.start, next.start⟩ :: later else later
    else if flag then []
    else match ((next, flag') :: rest).getLast? with
      | some (last, _) => [.delete ⟨s.stop, last.stop⟩]
      | none => []
  | _ => []

/-- The deletions that take the flagged items out of a list, given the spans of its items. -/
def dropItems (items : List Span) (flags : List Bool) : List Splice :=
  dropBeforeKept (items.zip flags)

/-- The deletion of a whole construct: with its line when it stands alone there, else with the
blanks after it, or with those before it when nothing follows. -/
def takeOut (source : Text) (span : Span) : Splice :=
  if Line.blankBefore source span.start && Line.blankAfter source span.stop then
    .delete ⟨Line.start source span.start, Line.next source span.stop⟩
  else
    let stop := Line.skipBlanks source span.stop
    if span.stop < stop && !Line.blankAfter source span.stop then .delete ⟨span.start, stop⟩
    else .delete ⟨Text.width (Text.trimEnd isIndent (Text.before span.start source)), span.stop⟩

/-- The insertion of a declaration. It goes below the last of the anchors, indented alike, or right
after it when code follows there. Without anchors it goes on a line of its own above the
declaration that starts at `start`, or right before it when code precedes it there. -/
def addLine (source : Text) (anchors : List Span) (start : Nat) (text : Text) : Splice :=
  let ending := Line.ending source
  match anchors.getLast? with
  | some anchor =>
    if !Line.blankAfter source anchor.stop then .insert anchor.stop (" " ++ text)
    else
      let indent := Line.indentation source anchor.start
      if Line.stop source anchor.stop = Text.width source then
        .insert anchor.stop (ending ++ indent ++ text)
      else .insert (Line.next source anchor.stop) (indent ++ text ++ ending)
  | none =>
    if Line.blankBefore source start then
      .insert (Line.start source start) (Line.indentation source start ++ text ++ ending)
    else .insert start (text ++ " ")

end Crosslink.Edit
