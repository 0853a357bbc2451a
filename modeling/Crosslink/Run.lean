import Crosslink.CommandLine
import Crosslink.Project
import Crosslink.Answer

/-!
# Runs

What the commands do: `scan` reports every disagreement and changes nothing, `sync` writes what is
missing, and `report` lists the tests of every production method. A run is a function from the
directory of a project to its output and to what the directory holds afterwards.
-/

namespace Crosslink

/-- What a run that is finished comes to. -/
structure Run where
  status : ExitStatus
  output : Text
  /-- The files afterwards. -/
  tree : FileTree

/-- What a process leaves behind: its exit code, and what it writes to its two outputs. -/
structure Printed where
  exit : Nat
  out : Text
  err : Text
  deriving DecidableEq, Repr

namespace CommandLine

/-- An answer in the form of output that is asked for. -/
def inFormat (line : CommandLine) (document : Json.Value) (summary : Text) : Text :=
  match line.format with
  | .json => document.pretty ++ "\n"
  | .text => summary

/-- Open the project, given the directory at its root, if there is one. -/
def openProject (line : CommandLine) (directory? : Option Directory) : Except Fault Project :=
  Project.openAt line.projectRoot directory?
    (line.testMappings.map fun (directory, ns) => Mapping.ofTexts directory ns) line.framework

/-- Open and scan the project. -/
def scanProject (line : CommandLine) (directory? : Option Directory) :
    Except Fault (Project × Directory × ScanResult) := do
  let project ← line.openProject directory?
  let directory := directory?.getD {}
  return (project, directory, ← project.scan directory)

/-- Report every disagreement. -/
def scanRun (line : CommandLine) (directory? : Option Directory) : Except Fault Run := do
  let (_, directory, scanned) ← line.scanProject directory?
  let answer : ScanAnswer :=
    ⟨.of scanned.report scanned.production, scanned.findings, scanned.faults⟩
  return ⟨answer.status, line.inFormat answer.toJson answer.summaryText, directory.tree⟩

/-- Write what is missing. -/
def syncRun (line : CommandLine) (options : Policy) (directory? : Option Directory) :
    Except Fault Run := do
  let (project, directory, scanned) ← line.scanProject directory?
  let findings := scanned.findings
  let plan := Plan.ofReport scanned.registry scanned.production options findings
  let (after, outcome) := Sync.apply project.frameworks options directory plan
  let answer : SyncAnswer :=
    ⟨plan, outcome, findings.filter fun f => !f.kind.canBeSettled, scanned.faults⟩
  return ⟨answer.status, line.inFormat answer.toJson answer.summaryText, after.tree⟩

/-- The target that the report is to be restricted to. -/
def parseMethod (method : Option Text) : Except Fault (Option Target) :=
  match method with
  | none => .ok none
  | some m =>
    match Target.parse m with
    | .ok target => .ok (some target)
    | .error e => .error (.arguments ("invalid --method '" ++ m ++ "': " ++ e.message))

/-- List the tests of every production method, or of those that `method` asks for. -/
def reportRun (line : CommandLine) (method : Option Text) (directory? : Option Directory) :
    Except Fault Run := do
  let only ← parseMethod method
  let (_, directory, scanned) ← line.scanProject directory?
  if let some target := only then
    if !scanned.production.knows target then
      throw (.arguments ("no production " ++ (if target.isClass then "class" else "method" : String)
        ++ " '" ++ target.canonical ++ "'"))
  let answer : ReportAnswer :=
    ⟨coverage scanned.registry scanned.production only, scanned.faults⟩
  return ⟨answer.status, line.inFormat answer.toJson answer.summaryText, directory.tree⟩

/-- Do what is asked, given the directory at the project's root, if there is one. -/
def run (line : CommandLine) (directory? : Option Directory) : Except Fault Run :=
  match line.command with
  | .scan => line.scanRun directory?
  | .sync dryRun linkOnly prune => line.syncRun ⟨dryRun, linkOnly, prune⟩ directory?
  | .report method => line.reportRun method directory?

/-- The directory at the project's root, which is told as seen from the top of a tree. -/
def projectDirectory (line : CommandLine) (around : FileTree) : Option Directory :=
  (around.folderAt line.projectRoot).map fun tree => ⟨line.projectRoot, tree⟩

/-- Do what is asked from the top of a tree. The result holds the whole tree afterwards. -/
def runIn (line : CommandLine) (around : FileTree) : Except Fault Run := do
  let r ← line.run (line.projectDirectory around)
  return { r with tree := around.graftAt line.projectRoot r.tree }

/-- What a process prints for a run. A fault that ends it is told on the second output, or as a
document on the first one when documents are asked for. -/
def printed (line : CommandLine) : Except Fault Run → Printed
  | .ok r => ⟨r.status.code, r.output, []⟩
  | .error fault =>
    match line.format with
    | .json => ⟨fault.status.code, fault.toJson.pretty ++ "\n", []⟩
    | .text => ⟨fault.status.code, [], "error: " ++ fault.message ++ "\n"⟩

end CommandLine

end Crosslink
