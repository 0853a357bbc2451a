import Crosslink.Diff.Unified
import Crosslink.Digest
import Crosslink.Directory
import Crosslink.Fault
import Crosslink.Framework
import Crosslink.Plan
import Crosslink.Production.Editor

/-!
# Carrying out a plan

A plan is carried out file by file: the file is read once, all actions for it are carried out on its
text one after the other, and the result is written once. A file with which something goes wrong is
left as it is and does not keep the others from being changed.

The tools that change texts are handed in, so that a plan is carried out in the same way whatever
they do.
-/

namespace Crosslink

/-- A file that a plan changes. -/
structure ChangedFile where
  /-- The file as seen from the project. -/
  path : Path
  /-- The number of actions carried out on it. -/
  actions : Nat
  /-- The digest of the content before. -/
  before : Text
  /-- The digest of the content after. -/
  after : Text
  /-- The unified diff of the two. -/
  diff : Text
  deriving DecidableEq, Repr

namespace ChangedFile

/-- The change of a file from one text to another. -/
def between (path : Path) (actions : Nat) (before after : Text) : ChangedFile :=
  ⟨path, actions, Digest.ofText before, Digest.ofText after, Diff.unified path.text before after⟩

end ChangedFile

/-- What carrying out a plan comes to. -/
structure Outcome where
  dryRun : Bool := false
  /-- The files changed, sorted. -/
  changes : List ChangedFile := []
  /-- The files that something went wrong with, sorted. -/
  faults : List FileFault := []
  deriving DecidableEq, Repr

/-- The diffs of all files, one after the other. -/
def Outcome.diff (o : Outcome) : Text := o.changes.flatMap ChangedFile.diff

namespace Sync

/-- What changes the links of the tests of one framework. -/
structure Adapter where
  /-- The name of the framework. -/
  name : Text
  /-- True for the tests whose links it can change. -/
  writes : TestCase → Bool
  /-- Add links to a test in a text, covering their targets or not. -/
  inject : Text → TestCase → List Text → Bool → Except EditError Text
  /-- Remove links from a test in a text. -/
  remove : Text → TestCase → List Text → Except EditError Text

/-- What changes the texts that a plan is about. -/
structure Toolset where
  adapters : List Adapter
  /-- Add back-references to a method in a text. -/
  refer : Text → Target → List BackReference → Except EditError Text

/-- The adapter of a framework. -/
def Adapter.of (f : Framework) : Adapter := ⟨f.name, f.writes, f.inject, f.remove⟩

/-- The tools with the adapters of these frameworks. -/
def Toolset.of (frameworks : List Framework) : Toolset :=
  ⟨frameworks.map Adapter.of, Production.inject⟩

/-- The adapter that changes the links of a recorded test: the first of its framework's name, which
has to write links in the test's style. -/
def Toolset.adapterFor (tools : Toolset) (record : RegisteredTest) : Except EditError Adapter :=
  match tools.adapters.find? (·.name == record.framework) with
  | some adapter =>
    if adapter.writes record.case then .ok adapter
    else .error (.unsupported record.framework record.case.style.label)
  | none => .error (.unsupported record.framework record.case.style.label)

/-- Carry out an action on the text of its file. -/
def perform (tools : Toolset) (text : Text) : Action → Except EditError Text
  | .addBackReference _ method test => tools.refer text method [test]
  | .addTestLink record _ target covers => do
    (← tools.adapterFor record).inject text record.case [target.canonical] covers
  | .removeTestLink record _ target => do
    (← tools.adapterFor record).remove text record.case [target.canonical]

/-- Carry out actions on the text of their file, one after the other. -/
def performAll (tools : Toolset) (text : Text) (actions : List Action) : Except EditError Text :=
  actions.foldlM (perform tools) text

/-- What the actions for a file come to: the text before and the text after. -/
def edited (tools : Toolset) (directory : Directory) (file : Path) (actions : List Action) :
    Except Fault (Text × Text) := do
  let before ← (directory.read file).mapError (.io file)
  let after ← (performAll tools before actions).mapError (.edit file)
  return (before, after)

/-- A directory with what has come of a plan so far. -/
structure State where
  directory : Directory
  outcome : Outcome

/-- The state with something gone wrong with a file. -/
def State.fail (s : State) (file : Path) (fault : Fault) : State :=
  { s with outcome :=
    { s.outcome with faults := s.outcome.faults ++ [FileFault.ofFault file fault] } }

/-- The state with a file changed, and the directory after that. -/
def State.change (s : State) (directory : Directory) (change : ChangedFile) : State :=
  ⟨directory, { s.outcome with changes := s.outcome.changes ++ [change] }⟩

/-- Carry out the actions for one file. -/
def applyFile (tools : Toolset) (s : State) (file : Path) (actions : List Action) : State :=
  match edited tools s.directory file actions with
  | .error fault => s.fail file fault
  | .ok (before, after) =>
    if after = before then s
    else
      let change := ChangedFile.between file actions.length before after
      if s.outcome.dryRun then s.change s.directory change
      else match s.directory.write file (.text after) with
        | .ok directory => s.change directory change
        | .error e => s.fail file (.io file e)

/-- Carry out a plan on the files of a directory with these tools. -/
def carryOut (tools : Toolset) (options : Policy) (directory : Directory) (plan : Plan) :
    Directory × Outcome :=
  let s := plan.grouped.foldl (fun s (file, actions) => applyFile tools s file actions)
    ⟨directory, { dryRun := options.dryRun }⟩
  (s.directory, s.outcome)

/-- Carry out a plan on the files of a directory of a project that uses these frameworks. -/
def apply (frameworks : List Framework) : Policy → Directory → Plan → Directory × Outcome :=
  carryOut (.of frameworks)

end Sync

end Crosslink
