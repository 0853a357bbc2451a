import Crosslink.TestCase
import Crosslink.Text.Line
import Crosslink.Source.Member

/-!
# Tests with attribute lists

A test of this style is a public method of a class that is named `test…` or marked as a test, and
its links are attributes above it:

    #[LinksAndCovers(UserService::class, 'create')]
    #[Links(UserService::class, 'validate')]
    public function test_creates_user(): void
-/

namespace Crosslink.AttributeList

open Source

/-- A test and the method it is. -/
structure Test where
  case : TestCase
  method : Method
  deriving DecidableEq, Repr

/-- The attribute groups of a method that link it. -/
def groupsWithLinks (m : Method) : List AttributeGroup :=
  m.attributes.filter AttributeGroup.holdsLink

/-- The attributes of a method that link it. -/
def linkAttributes (m : Method) : List Attribute :=
  (groupsWithLinks m).flatMap fun g => g.attributes.filter Attribute.isLink

namespace Test

/-- The attributes that link a test. -/
def linkAttributes (t : Test) : List Attribute := AttributeList.linkAttributes t.method

end Test

/-- A file of tests, with the imports that give its class names their meaning. -/
structure File where
  imports : Imports
  tests : List Test
  deriving DecidableEq, Repr

/-- A public method with a body is a test when its name begins with `test`, when it has the
attribute `Test`, or when its documentation comment says `@test`. -/
def isTest (source : Text) (m : Method) : Bool :=
  m.isPublic && !m.isAbstract
    && (("test" : Text).isPrefixOf m.name || m.attributes.any (·.has testName)
      || m.doc.any fun d => Text.contains "@test" (d.slice source))

/-- The link an attribute declares, if it names a target. -/
def linkOf (imports : Imports) (a : Attribute) : Option Link :=
  (a.target imports).map fun target => ⟨target, a.isNamed linksAndCoversName⟩

/-- The test that a method of a class is. -/
def testOf (source : Text) (imports : Imports) (className : Text) (m : Method) : Test :=
  { case :=
      { name := m.name
        identifier := className ++ memberSeparator ++ m.name
        span := m.span
        declarationPoint := match (groupsWithLinks m).getLast? with
          | some g => g.span.stop
          | none => Line.start source m.start
        links := (linkAttributes m).filterMap (linkOf imports)
        style := .attributeList }
    method := m }

/-- The tests among the methods of a class. -/
def testsIn (source : Text) (imports : Imports) (c : DeclaredClass) : List Test :=
  (c.methods.filter (isTest source)).map (testOf source imports c.name)

/-- Read a file of tests. -/
def File.read (source : Text) : Except SyntaxError File := do
  let l ← tokenize source
  let imports := Imports.ofTokens l
  return ⟨imports, (l.classes source).flatMap (testsIn source imports)⟩

/-- The test cases of a source text. -/
def readTests (source : Text) : Except SyntaxError (List TestCase) :=
  (File.read source).map fun f => f.tests.map Test.case

end Crosslink.AttributeList
