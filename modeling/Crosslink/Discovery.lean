import Crosslink.Fault
import Crosslink.Glob.Expression

/-!
# Discovery of files

Files are found by patterns for their paths as seen from the project. Directories that hold other
people's code or no code at all are not looked into. The files found are sorted by their paths.
-/

namespace Crosslink.Discovery

/-- The names of directories that are not looked into. -/
def excludedNames : List Text :=
  [".git", ".hg", ".svn", ".idea", ".phpunit.cache", "vendor", "node_modules", "target"]

/-- True for the name of a directory that is not looked into. -/
def isExcludedName (name : Text) : Bool := excludedNames.contains name

/-- True for a path that has such a name in it. -/
def isExcluded (p : Path) : Bool := p.names.any isExcludedName

/-- The path that names lead along. -/
def pathOf (names : List Text) : Path := ⟨Text.join ['/'] names⟩

/-- Paths in their order. -/
def sortPaths (paths : List Path) : List Path := paths.mergeSort fun a b => (a.cmp b).isLE

/-- Read patterns that are to be used together. -/
def patterns (texts : List Text) : Except Fault (List Glob) := do
  let globs ← (Glob.parseAll texts).mapError fun (pattern, defect) =>
    .arguments ("invalid glob pattern '" ++ pattern ++ "': error parsing glob '" ++ pattern ++ "': "
      ++ defect.message)
  match Glob.setDefect? globs with
  | some d => throw (.arguments ("invalid glob set: " ++ d.message))
  | none => return globs

/-- The files of a tree whose paths match one of the patterns, sorted. -/
def discover (tree : FileTree) (globs : List Glob) : List Path :=
  let paths := (tree.filesUnder isExcludedName []).map fun (names, _) => pathOf names
  sortPaths (paths.filter fun p => Glob.anyMatch globs p.text)

end Crosslink.Discovery
