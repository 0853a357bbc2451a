import Crosslink.AttributeList.Editor
import Crosslink.FluentChain.Editor
import Crosslink.Ownership

/-!
# Test frameworks

A framework says in which style its tests are written and where they are found. Everything that is
done with tests goes through these functions, so that the rest of the library knows no framework by
name.
-/

namespace Crosslink

/-- The test frameworks. -/
inductive Framework where
  | pest
  | phpunit
  deriving DecidableEq, Repr

namespace Framework

/-- Every framework, in the order in which they are tried. -/
def all : List Framework := [pest, phpunit]

/-- The name of a framework. -/
def name : Framework → Text
  | pest => "pest"
  | phpunit => "phpunit"

/-- The framework with a name, the case of ASCII letters left out of account. -/
def named? (name : Text) : Option Framework := all.find? fun f => Text.sameLetters f.name name

/-- The style in which the tests of a framework declare their links. -/
def style : Framework → Style
  | pest => .fluentChain
  | phpunit => .attributeList

/-! ## Files -/

/-- The patterns of the paths at which tests are looked for. -/
def patterns : Framework → List Text
  | pest => ["tests/**/*Test.php", "tests/**/*.test.php"]
  | phpunit => ["tests/**/*Test.php"]

/-- The package that a project using the framework requires. -/
def package : Framework → Text
  | pest => "pestphp/pest"
  | phpunit => "phpunit/phpunit"

/-- The files one of which gives away a project using the framework. -/
def configurationFiles : Framework → List Path
  | pest => ["tests/Pest.php"]
  | phpunit => ["phpunit.xml", "phpunit.xml.dist"]

/-- True for the files that hold code at all. -/
def readsFile (path : Path) : Bool := path.extension == some ("php" : Text)

/-- True when a test file with this content is written for the framework. -/
def owns (f : Framework) (source : Text) : Bool :=
  Ownership.hasClassLine source == (f.style = .attributeList : Bool)

/-! ## Tests -/

/-- The tests of a source text. -/
def readTests : Framework → Text → Except SyntaxError (List TestCase)
  | pest => FluentChain.readTests
  | phpunit => AttributeList.readTests

/-- The tests of the file at a path, with this content. -/
def readTestsAt : Framework → Path → Text → Except SyntaxError (List TestCase)
  | pest => FluentChain.readTestsAt
  | phpunit => fun _ => AttributeList.readTests

/-- Add links to a test. -/
def inject : Framework → Text → TestCase → List Text → Bool → Except EditError Text
  | pest => FluentChain.inject
  | phpunit => AttributeList.inject

/-- Remove links from a test. -/
def remove : Framework → Text → TestCase → List Text → Except EditError Text
  | pest => FluentChain.remove
  | phpunit => AttributeList.remove

/-- True when the framework writes links in the style of a test. -/
def writes (f : Framework) (t : TestCase) : Bool := f.style == t.style

end Framework

end Crosslink
