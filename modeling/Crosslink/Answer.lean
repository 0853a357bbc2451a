import Crosslink.Coverage
import Crosslink.Json.Value
import Crosslink.Scan
import Crosslink.Sync

/-!
# Answers

What each command answers, as a JSON document for programs and as a summary for people. Every
document starts with the status of the run and the version of the schema.
-/

namespace Crosslink

open Json

/-! ## Parts of documents -/

namespace Answer

/-- The version of the documents. -/
def formatVersion : Text := "1"

/-- A path in a document. -/
def ofPath (p : Path) : Value := .string p.text

/-- A file fault in a document. -/
def ofFileFault (f : FileFault) : Value :=
  .object [("path", ofPath f.path), ("kind", .string f.kind.label), ("message", .string f.message)]

/-- A finding in a document. -/
def ofFinding (f : Finding) : Value :=
  .object [("kind", .string f.kind.label), ("target", .ofOption f.canonical),
    ("test", .string f.test), ("file", .ofOption (f.file.map Path.text)),
    ("message", .string f.message)]

/-- A back-reference in a document. -/
def ofBackReference (r : BackReference) : Value :=
  .object [("test_identifier", .string r.container), ("test_method", .ofOption r.member)]

/-- An action in a document. -/
def ofAction : Action → Value
  | .addBackReference file method test =>
    .object [("action", .string "add_back_reference"), ("file", ofPath file),
      ("method", .string method.canonical), ("test", ofBackReference test)]
  | .addTestLink record test target covers =>
    .object [("action", .string "add_test_link"), ("file", ofPath record.file),
      ("framework", .string record.framework), ("test", .string test),
      ("target", .string target.canonical), ("with_coverage", .boolean covers)]
  | .removeTestLink record test target =>
    .object [("action", .string "remove_test_link"), ("file", ofPath record.file),
      ("framework", .string record.framework), ("test", .string test),
      ("target", .string target.canonical)]

/-- A changed file in a document. -/
def ofChange (c : ChangedFile) : Value :=
  .object [("path", ofPath c.path), ("actions", .number c.actions), ("before", .string c.before),
    ("after", .string c.after), ("diff", .string c.diff)]

/-- What is linked to a method in a document. -/
def ofCoverage (e : MethodCoverage) : Value :=
  .object [("method", .string e.method.canonical), ("file", ofPath e.file),
    ("tests", .list (e.tests.map fun t =>
      .object [("test", .string t.test), ("with_coverage", .boolean t.covers)])),
    ("tested_by", .list (e.testedBy.map .string))]

/-- A document with its status and the members after that. -/
def document (status : ExitStatus) (members : List (Text × Value)) : Value :=
  .object (("status", .string status.label) :: ("schema_version", .string formatVersion) :: members)

/-! ## Parts of summaries -/

/-- A line of a summary. -/
def line (text : Text) : Text := text ++ "\n"

/-- The files with faults of one kind, under a title. -/
def faultLines (faults : List FileFault) (kind : FileFault.Kind) (title : Text) : Text :=
  match faults.filter (·.kind == kind) with
  | [] => []
  | found => line (title ++ ":")
    ++ found.flatMap fun f => line ("  " ++ f.path.text ++ ": " ++ f.message)

/-- A finding as people read it. -/
def findingLine (f : Finding) : Text :=
  line ("  [" ++ f.kind.label ++ "] " ++ f.canonical.getD "-" ++ " <- " ++ f.test ++ ": "
    ++ f.message)

/-- The faults and the findings of a run. -/
def problemLines (findings : List Finding) (faults : List FileFault) : Text :=
  faultLines faults .parse "Skipped (parse errors)"
    ++ faultLines faults .io "Skipped (IO errors)"
    ++ faultLines faults .modify "Not modified (rewrite errors)"
    ++ (if findings.isEmpty then [] else line "Findings:" ++ findings.flatMap findingLine)

end Answer

/-! ## The scan command -/

/-- What a scan of a project comes to in numbers. -/
structure ScanTotals where
  matched : Nat
  parsed : Nat
  skipped : Nat
  tests : Nat
  classes : Nat
  methods : Nat
  deriving DecidableEq, Repr

namespace ScanTotals

/-- The numbers of a scan of test files and of the production code. -/
def of (report : Scan.Tally) (production : Production.Index) : ScanTotals :=
  ⟨report.matched, report.parsed, report.skipped, report.tests, production.classCount,
    production.methodCount⟩

/-- The numbers in a document. -/
def toJson (s : ScanTotals) : Value :=
  .object [("files_matched", .number s.matched), ("files_parsed", .number s.parsed),
    ("files_skipped", .number s.skipped), ("tests", .number s.tests),
    ("production_classes", .number s.classes), ("production_methods", .number s.methods)]

end ScanTotals

/-- The answer to `scan`. -/
structure ScanAnswer where
  summary : ScanTotals
  findings : List Finding
  faults : List FileFault
  deriving DecidableEq, Repr

namespace ScanAnswer

open Answer

/-- How the run ends. -/
def status (r : ScanAnswer) : ExitStatus := .ofCounts r.findings.length r.faults.length

/-- The answer as a document. -/
def toJson (r : ScanAnswer) : Value :=
  document r.status [("summary", r.summary.toJson), ("findings", .list (r.findings.map ofFinding)),
    ("errors", .list (r.faults.map ofFileFault))]

/-- The answer as a summary. -/
def summaryText (r : ScanAnswer) : Text :=
  let n := Text.ofNat
  let s := r.summary
  line ("Scanned " ++ n s.matched ++ " test files (" ++ n s.parsed ++ " parsed, " ++ n s.skipped
      ++ " skipped): " ++ n s.tests ++ " tests; " ++ n s.classes ++ " production classes, "
      ++ n s.methods ++ " methods")
    ++ problemLines r.findings r.faults
    ++ (if r.findings.isEmpty && r.faults.isEmpty then line "All links are consistent."
      else line (n r.findings.length ++ " findings, " ++ n r.faults.length ++ " file errors"))

end ScanAnswer

/-! ## The sync command -/

/-- The answer to `sync`. -/
structure SyncAnswer where
  plan : Plan
  outcome : Outcome
  /-- The findings that no action settles. -/
  leftOver : List Finding
  /-- What was wrong with files when they were scanned. -/
  scanFaults : List FileFault
  deriving DecidableEq, Repr

namespace SyncAnswer

open Answer

/-- What is wrong with files, first in the scan and then in carrying out the plan. -/
def faults (r : SyncAnswer) : List FileFault := r.scanFaults ++ r.outcome.faults

/-- How the run ends. -/
def status (r : SyncAnswer) : ExitStatus := .ofCounts r.leftOver.length r.faults.length

/-- The answer as a document. -/
def toJson (r : SyncAnswer) : Value :=
  document r.status [("dry_run", .boolean r.outcome.dryRun),
    ("actions", .list (r.plan.actions.map ofAction)),
    ("changes", .list (r.outcome.changes.map ofChange)),
    ("unresolved", .list (r.leftOver.map ofFinding)),
    ("errors", .list (r.faults.map ofFileFault))]

/-- The answer as a summary. A run that writes nothing shows what it would write. -/
def summaryText (r : SyncAnswer) : Text :=
  let n := Text.ofNat
  (if r.outcome.dryRun then r.outcome.diff else [])
    ++ (r.plan.actions.flatMap fun a => line (a.file.text ++ ": " ++ a.display))
    ++ line (n r.plan.actions.length ++ " actions, "
      ++ (if r.outcome.dryRun then "would change " else "changed " : String)
      ++ n r.outcome.changes.length ++ " files")
    ++ problemLines r.leftOver r.faults

end SyncAnswer

/-! ## The report command -/

/-- The answer to `report`. -/
structure ReportAnswer where
  methods : List MethodCoverage
  faults : List FileFault
  deriving DecidableEq, Repr

namespace ReportAnswer

open Answer

/-- How the run ends. -/
def status (r : ReportAnswer) : ExitStatus := .ofCounts 0 r.faults.length

/-- The answer as a document. -/
def toJson (r : ReportAnswer) : Value :=
  document r.status [("methods", .list (r.methods.map ofCoverage)),
    ("errors", .list (r.faults.map ofFileFault))]

/-- The lines about one method. -/
def entryText (e : MethodCoverage) : Text :=
  line (e.method.canonical ++ " (" ++ e.file.text ++ ")")
    ++ (if e.tests.isEmpty then line "  (no linking tests)" else [])
    ++ e.tests.flatMap fun t =>
      line ("  " ++ (if t.covers then "covers " else "links " : String) ++ t.test)

/-- The answer as a summary. -/
def summaryText (r : ReportAnswer) : Text :=
  r.methods.flatMap entryText ++ problemLines [] r.faults

end ReportAnswer

/-! ## Runs that cannot be finished -/

namespace Fault

open Answer

/-- A fault as a document. -/
def toJson (f : Fault) : Value :=
  let file := match f.path? with
    | some path => [(("path" : Text), ofPath path)]
    | none => []
  document .fatal [("error", .object ([(("code" : Text), Value.number f.status.code),
    ("kind", .string f.kind), ("message", .string f.message)] ++ file))]

end Fault

end Crosslink
