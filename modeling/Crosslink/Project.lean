import Crosslink.Manifest
import Crosslink.Scan

/-!
# Projects

A project is a directory with tests and production code. Opening it reads its manifest, which may be
missing, and finds out which frameworks it uses.
-/

namespace Crosslink

/-- What has to be known of a project in order to scan it. -/
structure Project where
  autoload : Autoload := {}
  /-- The frameworks to look for tests with, the first of them preferred. -/
  frameworks : List Framework := []
  deriving DecidableEq, Repr

namespace Project

/-- The path of the manifest in the project's directory. -/
def manifestPath : Path := ⟨Manifest.fileName⟩

/-- True when the manifest of a project requires a package. A manifest that cannot be read requires
none. -/
def requires (directory : Directory) (package : Text) : Bool :=
  match directory.read manifestPath with
  | .ok text => (Manifest.parse text).toOption.any (·.requires package)
  | .error _ => false

/-- True when a project uses a framework: it requires its package, or has one of its files. -/
def usesFramework (directory : Directory) (f : Framework) : Bool :=
  requires directory f.package || f.configurationFiles.any directory.isFile

/-- The frameworks a project uses, or all of them when it seems to use none. -/
def availableFrameworks (directory : Directory) : List Framework :=
  match Framework.all.filter (usesFramework directory) with
  | [] => Framework.all
  | used => used

/-- The mappings that the manifest of the project in a directory gives. -/
def readAutoload (directory : Directory) : Except Fault Autoload :=
  let path := directory.path.join manifestPath
  match directory.read manifestPath with
  | .ok text =>
    match Manifest.parse text with
    | .ok manifest => .ok manifest.autoload
    | .error e => .error (.config path (e.message text))
  | .error .notFound => .ok {}
  | .error e => .error (.config path e.message)

/-- Open the project at `root`, given the directory there, if it is one. The test mappings come
before those of the manifest; without a framework the project's own are used. -/
def openAt (root : Path) (directory? : Option Directory) (testMappings : List Mapping)
    (framework : Option Framework) : Except Fault Project := do
  let some directory := directory?
    | throw (.arguments ("project root " ++ root.text ++ " is not a directory"))
  let autoload ← readAutoload directory
  let frameworks := match framework with
    | some f => [f]
    | none => availableFrameworks directory
  return ⟨testMappings.foldr (fun m a => a.addTestMapping m) autoload, frameworks⟩

/-- Read the tests and the production code of a project. -/
def scan (p : Project) (directory : Directory) : Except Fault ScanResult := do
  let (registry, report) ← Scan.tests p.frameworks p.autoload directory
  let (production, faults) ← Scan.production p.autoload directory
  return ⟨registry, production, report, faults⟩

end Project

end Crosslink
