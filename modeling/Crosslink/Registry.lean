import Crosslink.Path
import Crosslink.TestCase

/-!
# The registry of tests

The registry holds every test found, in the order in which they were found; a test may be there more
than once. Its views are worked out from the records: the links of every test, and the tests of
every target.
-/

namespace Crosslink

/-- A test with the place it was found at. -/
structure RegisteredTest where
  /-- The file as seen from the project. -/
  file : Path
  /-- The name of the framework the test is written for. -/
  framework : Text
  case : TestCase
  deriving DecidableEq, Repr

namespace RegisteredTest

/-- The key of the test. -/
def identifier (r : RegisteredTest) : Text := r.case.identifier

/-- The links the test declares. -/
def links (r : RegisteredTest) : List Link := r.case.links

end RegisteredTest

/-- A list of things in their order, each once. -/
def sortedSet {α : Type} [Ord α] [DecidableEq α] (items : List α) : List α :=
  (items.mergeSort fun a b => (compare a b).isLE).eraseReps

/-- Every test found, in the order in which they were found. -/
structure Registry where
  records : List RegisteredTest := []
  deriving DecidableEq, Repr

namespace Registry

/-- The registry with one more test. -/
def insert (r : Registry) (record : RegisteredTest) : Registry := ⟨r.records ++ [record]⟩

/-- The number of records. -/
def size (r : Registry) : Nat := r.records.length

/-- The first record of a test. -/
def get? (r : Registry) (identifier : Text) : Option RegisteredTest :=
  r.records.find? (·.identifier == identifier)

/-- True when there is a record of a test. -/
def contains (r : Registry) (identifier : Text) : Bool :=
  r.records.any (·.identifier == identifier)

/-- The keys of all tests, sorted. -/
def identifiers (r : Registry) : List Text := sortedSet (r.records.map RegisteredTest.identifier)

/-- The links of a test; those of several records follow one another. -/
def linksOf (r : Registry) (identifier : Text) : List Link :=
  (r.records.filter (·.identifier == identifier)).flatMap RegisteredTest.links

/-- The links of every test, the tests sorted. -/
def linkView (r : Registry) : List (Text × List Link) :=
  r.identifiers.map fun i => (i, r.linksOf i)

/-- All targets of links, sorted. -/
def targets (r : Registry) : List Target :=
  sortedSet ((r.records.flatMap RegisteredTest.links).map Link.target)

/-- The keys of the tests that link a target, sorted. -/
def testsLinking (r : Registry) (target : Target) : List Text :=
  sortedSet ((r.records.filter (·.case.declares target)).map RegisteredTest.identifier)

/-- The tests that link each target, the targets sorted. -/
def testView (r : Registry) : List (Target × List Text) :=
  r.targets.map fun t => (t, r.testsLinking t)

/-- The records that a back-reference names. -/
def named (r : Registry) (reference : BackReference) : List RegisteredTest :=
  r.records.filter fun record => reference.names record.identifier

/-- The tests with more than one record and the number of their records, sorted. -/
def duplicates (r : Registry) : List (Text × Nat) :=
  (r.identifiers.map fun i => (i, r.records.countP (·.identifier == i))).filter (1 < ·.2)

end Registry

end Crosslink
