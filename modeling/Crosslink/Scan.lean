import Crosslink.Autoload
import Crosslink.Directory
import Crosslink.Discovery
import Crosslink.Framework
import Crosslink.Validation

/-!
# Scans

A scan reads the tests and the production code of a project. Each file is read by itself: one that
cannot be read is collected as a fault, and the scan goes on.

A test file belongs to the first framework that looks for its path and owns its content, and the
identifiers of its tests get the namespace of its directory in front.
-/

namespace Crosslink

/-- What a scan of test files comes to. -/
structure Scan.Tally where
  /-- The number of files found. -/
  matched : Nat := 0
  /-- The number of files read. -/
  parsed : Nat := 0
  /-- The number of files that belong to no framework or hold no code. -/
  skipped : Nat := 0
  /-- The number of tests found. -/
  tests : Nat := 0
  /-- What is wrong with the other files, in their order. -/
  faults : List FileFault := []
  deriving DecidableEq, Repr

namespace Scan.Tally

/-- The files with faults of a kind. -/
def filesOf (r : Scan.Tally) (kind : FileFault.Kind) : List Path :=
  (r.faults.filter (·.kind == kind)).map FileFault.path

end Scan.Tally

namespace Scan

/-! ## Test files -/

/-- What one test file comes to. -/
inductive FileResult where
  | skipped
  | parsed (records : List RegisteredTest)
  | faulty (fault : FileFault)

namespace FileResult

/-- The tests found in the file. -/
def records : FileResult → List RegisteredTest
  | parsed records => records
  | _ => []

/-- What is wrong with the file. -/
def fault? : FileResult → Option FileFault
  | faulty fault => some fault
  | _ => none

/-- True for a file that has been read. -/
def isParsed : FileResult → Bool
  | parsed _ => true
  | _ => false

/-- True for a file left out. -/
def isSkipped : FileResult → Bool
  | skipped => true
  | _ => false

end FileResult

/-- The frameworks with their patterns read. -/
def searches (frameworks : List Framework) : Except Fault (List (Framework × List Glob)) :=
  frameworks.mapM fun f => do return (f, ← Discovery.patterns f.patterns)

/-- The framework that a test file belongs to. A file that is no text belongs to none. -/
def ownerOf (searches : List (Framework × List Glob)) (directory : Directory) (file : Path) :
    Option Framework :=
  (searches.find? fun (f, globs) =>
    Glob.anyMatch globs file.text && (directory.read file).toOption.any f.owns).map Prod.fst

/-- Read a file: its text, and what is made of that. -/
def parse {α : Type} (directory : Directory) (file : Path)
    (reader : Text → Except SyntaxError α) : Except Fault α := do
  let source ← (directory.read file).mapError (.io file)
  (reader source).mapError fun e => .parse file e.message

/-- Read one test file, which has to be there. -/
def testFile (searches : List (Framework × List Glob)) (autoload : Autoload)
    (directory : Directory) (file : Path) : FileResult :=
  match directory.locate file with
  | .error e => .faulty (.ofFault file (.io file e))
  | .ok _ =>
    match ownerOf searches directory file with
    | none => .skipped
    | some f =>
      if Framework.readsFile file then
        match parse directory file (f.readTestsAt file) with
        | .ok cases =>
          .parsed (cases.map fun c => ⟨file, f.name, c.qualify (autoload.namespaceOf file)⟩)
        | .error fault => .faulty (.ofFault file fault)
      else .skipped

/-- The report on files from what each of them comes to. -/
def summarize (results : List FileResult) : Scan.Tally where
  matched := results.length
  parsed := results.countP FileResult.isParsed
  skipped := results.countP FileResult.isSkipped
  tests := (results.flatMap FileResult.records).length
  faults := results.filterMap FileResult.fault?

/-- Read all test files of a project. -/
def tests (frameworks : List Framework) (autoload : Autoload) (directory : Directory) :
    Except Fault (Registry × Scan.Tally) := do
  let searches ← searches frameworks
  let files := Discovery.discover directory.content (searches.flatMap Prod.snd)
  let results := files.map (testFile searches autoload directory)
  return (⟨results.flatMap FileResult.records⟩, summarize results)

/-! ## Production files -/

/-- True for a path in one of the directories, given in normal form. -/
def liesIn (directories : List Text) (file : Path) : Bool :=
  directories.any fun d => d.isPrefixOf (Text.replace '\\' "/" file.text)

/-- The production files of a project: the code in its production directories, without what lies in
its test directories. -/
def productionFiles (autoload : Autoload) (directory : Directory) : Except Fault (List Path) := do
  let globs ← Discovery.patterns (autoload.productionRoots.map (· ++ "**/*.php"))
  return (Discovery.discover directory.content globs).filter fun file =>
    !liesIn autoload.testRoots file && Framework.readsFile file

/-- Take the classes of a file into the index, or note what is wrong with it. -/
def addProductionFile (directory : Directory) (found : Production.Index × List FileFault)
    (file : Path) : Production.Index × List FileFault :=
  match parse directory file Production.readClasses with
  | .ok classes => (classes.foldl (fun index c => index.insert file c) found.1, found.2)
  | .error fault => (found.1, found.2 ++ [.ofFault file fault])

/-- Read all production files of a project. -/
def production (autoload : Autoload) (directory : Directory) :
    Except Fault (Production.Index × List FileFault) := do
  return (← productionFiles autoload directory).foldl (addProductionFile directory) ({}, [])

end Scan

/-- What a scan of a project comes to. -/
structure ScanResult where
  registry : Registry := {}
  production : Production.Index := {}
  report : Scan.Tally := {}
  productionFaults : List FileFault := []
  deriving Repr

namespace ScanResult

/-- What is wrong with files, test files first. -/
def faults (s : ScanResult) : List FileFault := s.report.faults ++ s.productionFaults

/-- The disagreements between tests and production code. -/
def findings (s : ScanResult) : List Finding := validate s.registry s.production

end ScanResult

end Crosslink
