import Crosslink.Span
import Crosslink.BackReference

/-!
# Test cases

A test case is one test found in a source text, with the links it declares and the places an edit
needs. Since a recorded case may be older than the text it is looked for in, `findAgain` finds it
again among the cases of the current text.
-/

namespace Crosslink

/-- A link a test declares. -/
structure Link where
  target : Target
  /-- True when the test also covers its target. -/
  covers : Bool
  deriving DecidableEq, Repr

/-- The two ways in which tests declare their links. -/
inductive Style where
  /-- Calls chained to the test: `test('…')->links(…)`. -/
  | fluentChain
  /-- Attribute groups above the test method: `#[Links(…)]`. -/
  | attributeList
  deriving DecidableEq, Repr

namespace Style

/-- The name of a style in output. -/
def label : Style → Text
  | fluentChain => "fluent_chain"
  | attributeList => "attribute_list"

end Style

/-- One test with the links it declares. -/
structure TestCase where
  /-- The method name, or the description with those of the groups around it. -/
  name : Text
  /-- The key of the test: `container::member`. -/
  identifier : Text
  /-- The whole test. -/
  span : Span
  /-- Where the declarations end, or where the first would go. -/
  declarationPoint : Nat
  /-- The links declared, in the order of the source, repetitions included. -/
  links : List Link
  style : Style
  deriving DecidableEq, Repr

/-- What stands between the descriptions of nested groups in a test's name. -/
def titleSeparator : Text := " > "

/-- The innermost description of a test's name. -/
def innermostTitle (name : Text) : Text := Text.lastSegment titleSeparator name

namespace TestCase

/-- The case with a namespace put before its identifier; an empty one changes nothing. -/
def qualify (ns : Text) (t : TestCase) : TestCase :=
  let ns := Text.trim (· = '\\') ns
  if ns = [] then t else { t with identifier := ns ++ "\\" ++ t.identifier }

/-- True when some declaration names `target`. -/
def declares (t : TestCase) (target : Target) : Bool := t.links.any (·.target == target)

/-- The container part of the identifier. -/
def container (t : TestCase) : Text := (splitIdentifier t.identifier).1

/-- The member part of the identifier. -/
def member (t : TestCase) : Text := (splitIdentifier t.identifier).2

/-- True when the identifier `relative`, as a file gives it, is the end of the qualified one. -/
def isEndOf (relative qualified : Text) : Bool :=
  qualified == relative || (("\\" ++ relative : Text)).isSuffixOf qualified
    || (memberSeparator ++ relative).isSuffixOf qualified

/-- The index at which a recorded case stands among the cases of the current text. Of those with
its name, the one that starts where it was recorded and whose identifier agrees is taken, else the
first whose identifier agrees, else the first. -/
def findAgain? (candidates : List TestCase) (recorded : TestCase) : Option Nat :=
  let named := fun c : TestCase => c.name == recorded.name
  let agrees := fun c : TestCase => named c && isEndOf c.identifier recorded.identifier
  (candidates.findIdx? fun c => agrees c && c.span.start == recorded.span.start)
    <|> candidates.findIdx? agrees
    <|> candidates.findIdx? named

/-- The case that a recorded one has become in the current text. -/
def findAgain (candidates : List TestCase) (recorded : TestCase) : Option TestCase :=
  (findAgain? candidates recorded).bind (candidates[·]?)

/-- The first case with this name, else the first whose innermost description is it. -/
def findNamed (tests : List TestCase) (name : Text) : Option TestCase :=
  (tests.find? (·.name == name)) <|> tests.find? (innermostTitle ·.name == name)

end TestCase

end Crosslink
