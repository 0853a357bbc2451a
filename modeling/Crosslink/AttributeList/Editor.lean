import Crosslink.EditError
import Crosslink.Edit
import Crosslink.AttributeList.Reader

/-!
# Editing attribute lists

Links are added as attribute groups on lines of their own below the groups that declare links, and
removed attribute by attribute, a group going with its line when it loses all. A link without
coverage that is to have it is renamed.
-/

namespace Crosslink.AttributeList

open Source

/-- Find a recorded test in the current text. -/
def locate (source : Text) (recorded : TestCase) : Except EditError (File × Test) := do
  let file ← (File.read source).mapError .malformed
  match (TestCase.findAgain? (file.tests.map Test.case) recorded).bind (file.tests[·]?) with
  | some t => return (file, t)
  | none => throw (.testNotFound recorded.name)

/-- The attribute group that declares one link. -/
def writeGroup (imports : Imports) (target : Target) (covers : Bool) : Text :=
  let name := if covers then linksAndCoversName else linksName
  let start := "#[" ++ name ++ "(" ++ imports.referenceTo target.className ++ "::class"
  match target.method with
  | some m => start ++ ", '" ++ Text.replace '\'' "\\'" m ++ "')]"
  | none => start ++ ")]"

/-- The change that gives an attribute coverage, any qualifier of its name kept. -/
def upgrade (a : Attribute) : Splice :=
  .replace ⟨a.nameSpan.stop - Text.width a.shortName, a.nameSpan.stop⟩ linksAndCoversName

/-- The groups that a new group goes below. -/
def anchors (m : Method) : List Span :=
  let groups := groupsWithLinks m
  (if groups.isEmpty then m.attributes else groups).map AttributeGroup.span

/-- What adding one link comes to. -/
def injectOne (source : Text) (imports : Imports) (m : Method) (covers : Bool) (target : Target) :
    List Splice :=
  match (linkAttributes m).filter fun a => a.target imports = some target with
  | [] =>
    [Edit.addLine source (anchors m) m.headStart (writeGroup imports target covers)]
  | first :: rest =>
    if covers && !((first :: rest).any (·.isNamed linksAndCoversName)) then [upgrade first] else []

/-- Add links to a test, those it has left alone but for the coverage they lack. -/
def inject (source : Text) (recorded : TestCase) (targets : List Text) (covers : Bool) :
    Except EditError Text := do
  let (file, t) ← locate source recorded
  let targets ← parseTargets targets
  applyEdit source (targets.eraseDups.flatMap (injectOne source file.imports t.method covers))

/-- Which attributes of a group declare a link to one of these targets. -/
def marks (imports : Imports) (targets : List Target) (g : AttributeGroup) : List Bool :=
  g.attributes.map fun a => a.isLink && (a.target imports).any targets.contains

/-- What taking links out of a group comes to. -/
def removeFromGroup (source : Text) (imports : Imports) (targets : List Target)
    (g : AttributeGroup) : List Splice :=
  let marks := marks imports targets g
  if marks.any id then
    if marks.all id then [Edit.takeOut source g.span]
    else Edit.dropItems (g.attributes.map Attribute.span) marks
  else []

/-- Remove links from a test. -/
def remove (source : Text) (recorded : TestCase) (targets : List Text) :
    Except EditError Text := do
  let (file, t) ← locate source recorded
  let targets ← parseTargets targets
  applyEdit source
    ((groupsWithLinks t.method).flatMap (removeFromGroup source file.imports targets))

end Crosslink.AttributeList
