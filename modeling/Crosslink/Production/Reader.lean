import Crosslink.Source.Member

/-!
# Production classes

The production side of links: classes with their methods, and the tests that the attribute
`TestedBy` of a method names.
-/

namespace Crosslink

/-- A production method. -/
structure Production.Method where
  name : Text
  /-- The whole declaration. -/
  span : Span
  /-- The tests the method names, in the order of the source. -/
  testedBy : List BackReference
  deriving DecidableEq, Repr

/-- A production class. -/
structure Production.Class where
  /-- The fully qualified name. -/
  name : Text
  methods : List Production.Method
  deriving DecidableEq, Repr

namespace Production

open Source

/-- The full name of a class declared in a file. -/
def fullName (imports : Imports) (c : DeclaredClass) : Text :=
  if imports.ns = [] then c.name else imports.ns ++ "\\" ++ c.name

/-- The tests that these attribute groups name. -/
def testsNamed (imports : Imports) (groups : List AttributeGroup) : List BackReference :=
  groups.flatMap fun g =>
    (g.attributes.filter (·.isNamed testedByName)).filterMap (·.testedBy imports)

/-- A method as the production side sees it. -/
def methodOf (imports : Imports) (m : Source.Method) : Method :=
  ⟨m.name, m.span, testsNamed imports m.attributes⟩

/-- The classes of a source text. -/
def readClasses (source : Text) : Except SyntaxError (List Class) := do
  let l ← tokenize source
  let imports := Imports.ofTokens l
  return (l.classes source).map fun c =>
    ⟨fullName imports c, c.methods.map (methodOf imports)⟩

end Production

end Crosslink
