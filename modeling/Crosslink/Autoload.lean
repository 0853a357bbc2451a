import Crosslink.Path
import Crosslink.Text.Blank

/-!
# Autoload mappings

A project maps directories to namespaces, for its tests and for its production code. The namespace
of a file follows from the deepest mapped directory that it lies in: the directories below that one
go on with the namespace that the mapping gives.

Directories are kept in a normal form (with slashes, no dot at the start, a slash at the end; the
project itself is the empty text), and namespaces with a backslash at the end.
-/

namespace Crosslink

/-- A directory of a project and the namespace of what it holds, both in normal form. -/
structure Mapping where
  directory : Text
  ns : Text
  deriving DecidableEq, Repr

namespace Mapping

/-- A directory without any number of `./` in front. -/
def dropHere : Text → Text
  | '.' :: '/' :: rest => dropHere rest
  | text => text

/-- The normal form of a directory. -/
def normalDirectory (directory : Text) : Text :=
  let slashed := Text.replace '\\' "/" (Text.trim isBlank directory)
  let bare := Text.trim (· = '/') (dropHere slashed)
  if bare = [] ∨ bare = ['.'] then [] else bare ++ "/"

/-- The normal form of a namespace. -/
def normalNamespace (ns : Text) : Text :=
  let bare := Text.trim (· = '\\') (Text.trim isBlank ns)
  if bare = [] then [] else bare ++ "\\"

/-- The mapping of a directory to a namespace, each written in any form. -/
def ofTexts (directory ns : Text) : Mapping := ⟨normalDirectory directory, normalNamespace ns⟩

/-- True when a directory in normal form lies in the mapped one. -/
def covers (m : Mapping) (directory : Text) : Bool := m.directory.isPrefixOf directory

/-- The number of directory names that a mapped directory consists of. -/
def depth (m : Mapping) : Nat := m.directory.count '/'

end Mapping

/-- The mappings of a project. -/
structure Autoload where
  /-- The mappings of test directories, which come first. -/
  tests : List Mapping := []
  production : List Mapping := []
  deriving DecidableEq, Repr

namespace Autoload

/-- The mapping that holds where no other does. -/
def fallback : Mapping := ⟨"tests/", "Tests\\"⟩

/-- The production directories of a project that maps none. -/
def defaultProduction : List Text := ["src/", "app/"]

/-- The project with a test mapping put before the others. -/
def addTestMapping (a : Autoload) (m : Mapping) : Autoload := { a with tests := m :: a.tests }

/-- Of two mappings, the first unless the second has the longer directory. -/
def deeper (a b : Mapping) : Mapping :=
  if Text.width a.directory < Text.width b.directory then b else a

/-- The first of the mappings with the longest directory. -/
def deepest? : List Mapping → Option Mapping
  | [] => none
  | m :: rest => some (rest.foldl deeper m)

/-- The namespace made of the one before and names after it, with no backslash at its end. -/
def extend (ns : Text) (names : List Text) : Text :=
  Text.join ['\\'] ((Text.segments '\\' ns).filter (· ≠ []) ++ names)

/-- The directory that names lead to, in normal form. -/
def directoryOf (names : List Text) : Text := names.flatMap (· ++ ['/'])

/-- The namespace of the file at a path. -/
def namespaceOf (a : Autoload) (p : Path) : Text :=
  let names := p.directoryNames
  let covering := (a.tests ++ a.production).filter (·.covers (directoryOf names))
  match deepest? covering with
  | some m => extend m.ns (names.drop m.depth)
  | none =>
    if fallback.covers (directoryOf names) then extend fallback.ns (names.drop fallback.depth)
    else extend fallback.ns names

/-- The directories to look for production code in. -/
def productionRoots (a : Autoload) : List Text :=
  if a.production.isEmpty then defaultProduction
  else ((a.production.map Mapping.directory).mergeSort fun x y => (compare x y).isLE).eraseReps

/-- The directories that hold tests and no production code. -/
def testRoots (a : Autoload) : List Text :=
  match (a.tests.map Mapping.directory).filter (· ≠ []) with
  | [] => [fallback.directory]
  | directories => directories

end Autoload

end Crosslink
