import Crosslink.Registry

/-!
# A registry that keeps its views

Working out a view takes a walk through all records, so it is done once, when the view is first
asked for, and again only after a record has been added. Reading a view therefore gives back the
registry with the view kept.
-/

namespace Crosslink

/-- A registry with the views that have been worked out since the last record was added. -/
structure CachedRegistry where
  registry : Registry := {}
  links? : Option (List (Text × List Link)) := none
  tests? : Option (List (Target × List Text)) := none
  deriving Repr

namespace CachedRegistry

/-- The registry with one more test, and no view. -/
def insert (c : CachedRegistry) (record : RegisteredTest) : CachedRegistry :=
  { registry := c.registry.insert record }

/-- The links of every test. -/
def linkView (c : CachedRegistry) : List (Text × List Link) × CachedRegistry :=
  match c.links? with
  | some view => (view, c)
  | none =>
    let view := c.registry.linkView
    (view, { c with links? := some view })

/-- The tests of every target. -/
def testView (c : CachedRegistry) : List (Target × List Text) × CachedRegistry :=
  match c.tests? with
  | some view => (view, c)
  | none =>
    let view := c.registry.testView
    (view, { c with tests? := some view })

/-- True when there is a record of a test. -/
def contains (c : CachedRegistry) (identifier : Text) : Bool × CachedRegistry :=
  let (view, c) := c.linkView
  (view.any (·.1 == identifier), c)

/-- The links of a test, none when there is no record of it. -/
def linksOf (c : CachedRegistry) (identifier : Text) : List Link × CachedRegistry :=
  let (view, c) := c.linkView
  ((view.lookup identifier).getD [], c)

/-- The keys of the tests that link a target, sorted. -/
def testsLinking (c : CachedRegistry) (target : Target) : List Text × CachedRegistry :=
  let (view, c) := c.testView
  ((view.lookup target).getD [], c)

end CachedRegistry

end Crosslink
