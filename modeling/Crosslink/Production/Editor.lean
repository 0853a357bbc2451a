import Crosslink.EditError
import Crosslink.Edit
import Crosslink.Production.Reader

/-!
# Writing back-references

A production method is given the tests that it does not name yet, each in an attribute group on a
line of its own below the groups that name tests.
-/

namespace Crosslink.Production

open Source

/-- The attribute group that names one test. -/
def render (r : BackReference) : Text :=
  let quote := fun t : Text => "'" ++ Text.replace '\'' "\\'" t ++ "'"
  let start := "#[" ++ testedByName ++ "(" ++ quote r.container
  match r.member with
  | some m => start ++ ", " ++ quote m ++ ")]"
  | none => start ++ ")]"

/-- The first method of a file that a target names, the case of ASCII letters left out of
account. -/
def findMethod (imports : Imports) (classes : List DeclaredClass) (className method : Text) :
    Option Source.Method :=
  ((classes.filter fun c => Text.sameLetters (fullName imports c) className).flatMap
    DeclaredClass.methods).find? fun m => Text.sameLetters m.name method

/-- The references to be added: of those wanted, the first of each kind that is not there. -/
def missing (existing : List BackReference) : List BackReference → List BackReference
  | [] => []
  | r :: rest =>
    if existing.any (·.same r) then missing existing rest
    else r :: missing (existing ++ [r]) rest

/-- Add back-references to a method. -/
def inject (source : Text) (target : Target) (tests : List BackReference) :
    Except EditError Text := do
  let some method := target.method | throw (.methodNotFound target.canonical)
  let l ← (tokenize source).mapError .malformed
  let imports := Imports.ofTokens l
  let some m := findMethod imports (l.classes source) target.className method
    | throw (.methodNotFound target.canonical)
  let groups := m.attributes.filter (·.has testedByName)
  let anchors := (if groups.isEmpty then m.attributes else groups).map AttributeGroup.span
  applyEdit source ((missing (testsNamed imports groups) tests).map fun r =>
    Edit.addLine source anchors m.headStart (render r))

end Crosslink.Production
