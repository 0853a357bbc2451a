import Crosslink.Production.Index

/-!
# Coverage

For every production method, the tests that link it or its class, and the tests it names.
-/

namespace Crosslink

/-- A test that links a method. -/
structure LinkedTest where
  test : Text
  /-- True when one of the links also covers its target. -/
  covers : Bool
  deriving DecidableEq, Repr

/-- What is linked to a production method. -/
structure MethodCoverage where
  method : Target
  /-- The file as seen from the project. -/
  file : Path
  /-- The tests that link the method or its class, sorted. -/
  tests : List LinkedTest
  /-- The tests the method names, as people read them. -/
  testedBy : List Text
  deriving DecidableEq, Repr

namespace Coverage

/-- True when a test has a link to a target that covers it. -/
def covers (registry : Registry) (target : Target) (test : Text) : Bool :=
  (registry.linksOf test).any fun l => l.target == target && l.covers

/-- The tests that link a method or its class, sorted. -/
def linkingTests (registry : Registry) (method : Target) : List LinkedTest :=
  (sortedSet (registry.testsLinking method ++ registry.testsLinking method.owner)).map fun test =>
    ⟨test, covers registry method test || covers registry method.owner test⟩

/-- What is linked to one method. -/
def entry (registry : Registry) (method : Target) (known : Production.Entry) : MethodCoverage :=
  ⟨method, known.file, linkingTests registry method, known.testedBy.map BackReference.display⟩

/-- True when a target asks for a method: it names the method itself or the class of it. -/
def asksFor (only : Option Target) (method : Target) : Bool :=
  match only with
  | none => true
  | some target => target == method || (target.isClass && target.className == method.className)

end Coverage

/-- What is linked to every production method that `only` asks for, sorted by method. -/
def coverage (registry : Registry) (production : Production.Index) (only : Option Target) :
    List MethodCoverage :=
  (production.methods.filter fun (method, _) => Coverage.asksFor only method).map
    fun (method, known) => Coverage.entry registry method known

end Crosslink
