import Crosslink.EditError
import Crosslink.FileTree

/-!
# Faults

What can go wrong in a run. A fault of a file leaves the file out and lets the run go on: it is
collected as a `FileFault`. A fault of the configuration or of the arguments ends the run.
-/

namespace Crosslink

/-! ## Exit statuses -/

/-- How a run ends. -/
inductive ExitStatus where
  | clean
  /-- There are findings, or files with faults. -/
  | findings
  /-- The run could not be finished. -/
  | fatal
  deriving DecidableEq, Repr

namespace ExitStatus

/-- The number a process ends with. -/
def code : ExitStatus → Nat
  | clean => 0
  | findings => 1
  | fatal => 2

/-- The status in output. -/
def label : ExitStatus → Text
  | clean => "ok"
  | findings => "findings"
  | fatal => "error"

/-- The status of a run that is finished, from the numbers of its findings and of its file
faults. -/
def ofCounts (findings faults : Nat) : ExitStatus :=
  if findings = 0 ∧ faults = 0 then clean else .findings

end ExitStatus

/-! ## Faults of a run -/

/-- What can go wrong in a run. -/
inductive Fault where
  /-- A file is malformed. -/
  | parse (path : Path) (reason : Text)
  /-- A file cannot be read or written. -/
  | io (path : Path) (error : FileError)
  /-- The configuration of the project is malformed. -/
  | config (path : Path) (reason : Text)
  /-- The arguments make no sense. -/
  | arguments (reason : Text)
  /-- The declarations in a file cannot be changed. -/
  | edit (path : Path) (error : EditError)
  /-- Something that should not happen. -/
  | internal (reason : Text)
  deriving DecidableEq, Repr

namespace Fault

/-- The fault in words. -/
def message : Fault → Text
  | parse path reason => "parse error in " ++ path.text ++ ": " ++ reason
  | io path error => "IO error on " ++ path.text ++ ": " ++ error.message
  | config path reason => "invalid configuration in " ++ path.text ++ ": " ++ reason
  | arguments reason => "invalid arguments: " ++ reason
  | edit path error => "cannot modify " ++ path.text ++ ": " ++ error.message
  | internal reason => "internal error: " ++ reason

/-- The kind of fault in output. -/
def kind : Fault → Text
  | parse .. => "parse_error"
  | io .. => "io_error"
  | config .. => "config_error"
  | arguments _ => "invalid_arguments"
  | edit .. => "modify_error"
  | internal _ => "internal_error"

/-- True for the faults that end a run. -/
def endsRun : Fault → Bool
  | config .. | arguments _ | internal _ => true
  | _ => false

/-- The file a fault is about. -/
def path? : Fault → Option Path
  | parse path _ | io path _ | config path _ | edit path _ => some path
  | _ => none

/-- How a run ends that a fault puts an end to. -/
def status (f : Fault) : ExitStatus := if f.endsRun then .fatal else .findings

end Fault

/-! ## Faults of a file -/

/-- The kinds of faults of a file. -/
inductive FileFault.Kind where
  | parse
  | io
  | modify
  deriving DecidableEq, Repr

/-- The kind in output. -/
def FileFault.Kind.label : FileFault.Kind → Text
  | parse => "parse"
  | io => "io"
  | modify => "modify"

/-- What is wrong with a file. -/
structure FileFault where
  /-- The file as seen from the project. -/
  path : Path
  kind : FileFault.Kind
  message : Text
  deriving DecidableEq, Repr

namespace FileFault

/-- A fault as one of the file at a path, in words that do not name the file again. -/
def ofFault (path : Path) : Fault → FileFault
  | .parse _ reason => ⟨path, .parse, reason⟩
  | .io _ error => ⟨path, .io, error.message⟩
  | .edit _ error => ⟨path, .modify, error.message⟩
  | fault => ⟨path, .parse, fault.message⟩

end FileFault

end Crosslink
