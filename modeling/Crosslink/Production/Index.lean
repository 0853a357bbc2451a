import Crosslink.Path
import Crosslink.Production.Reader
import Crosslink.Registry

/-!
# The index of production code

The index holds every production class found, each once: a class that is found again is passed over.
Its views are the methods of those classes, each under its target. Where a class declares two
methods under one target the last one counts.
-/

namespace Crosslink

/-- What is known of a production method. -/
structure Production.Entry where
  /-- The file as seen from the project. -/
  file : Path
  /-- The tests the method names, in the order of the source. -/
  testedBy : List BackReference
  deriving DecidableEq, Repr

/-- Every production class found, in the order in which they were found, with its file. -/
structure Production.Index where
  classes : List (Path × Production.Class) := []
  deriving DecidableEq, Repr

namespace Production.Index

/-- True when a class has been found. -/
def knowsClass (p : Production.Index) (className : Text) : Bool :=
  p.classes.any (·.2.name == className)

/-- The index with a class found in a file, unless a class of its name is already there. -/
def insert (p : Production.Index) (file : Path) (c : Production.Class) : Production.Index :=
  if p.knowsClass c.name then p else ⟨p.classes ++ [(file, c)]⟩

/-- The methods of a class under their targets. -/
def declared (file : Path) (c : Production.Class) : List (Target × Production.Entry) :=
  c.methods.map fun m => (Target.ofMethod c.name m.name, ⟨file, m.testedBy⟩)

/-- The methods of all classes under their targets, in the order in which they were found. -/
def declarations (p : Production.Index) : List (Target × Production.Entry) :=
  p.classes.flatMap fun (file, c) => declared file c

/-- What is known of the method a target names. -/
def method? (p : Production.Index) (target : Target) : Option Production.Entry :=
  p.declarations.reverse.lookup target

/-- Every method, sorted by target. -/
def methods (p : Production.Index) : List (Target × Production.Entry) :=
  (sortedSet (p.declarations.map Prod.fst)).filterMap fun t => (p.method? t).map (t, ·)

/-- True when the class or the method that a target names has been found. -/
def knows (p : Production.Index) (target : Target) : Bool :=
  if target.isClass then p.knowsClass target.className else (p.method? target).isSome

/-- The number of classes. -/
def classCount (p : Production.Index) : Nat := p.classes.length

/-- The number of methods. -/
def methodCount (p : Production.Index) : Nat := p.methods.length

end Production.Index

end Crosslink
