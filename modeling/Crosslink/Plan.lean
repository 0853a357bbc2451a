import Crosslink.Validation

/-!
# Plans

A plan is the list of edits that settle a report. It settles a missing back-reference by adding it,
or, when links are to be pruned, by removing the link; and a missing link by adding it.
-/

namespace Crosslink

/-- How findings are to be settled. -/
structure Policy where
  /-- Work the changes out, but write nothing. -/
  dryRun : Bool := false
  /-- Add links that do not cover their target. -/
  linkOnly : Bool := false
  /-- Remove links that no back-reference answers. -/
  prune : Bool := false
  deriving DecidableEq, Repr

/-- One edit of a file. -/
inductive Action where
  /-- Add a back-reference to a production method. -/
  | addBackReference (file : Path) (method : Target) (test : BackReference)
  /-- Add a link to a test. -/
  | addTestLink (record : RegisteredTest) (test : Text) (target : Target) (covers : Bool)
  /-- Remove a link from a test. -/
  | removeTestLink (record : RegisteredTest) (test : Text) (target : Target)
  deriving DecidableEq, Repr

namespace Action

/-- The file an action changes. -/
def file : Action → Path
  | addBackReference file .. => file
  | addTestLink record .. | removeTestLink record .. => record.file

/-- The action in words. -/
def display : Action → Text
  | addBackReference _ method test =>
    "add back-reference " ++ test.display ++ " on " ++ method.canonical
  | addTestLink _ test target covers =>
    "add " ++ (if covers then "coverage link " else "link " : String) ++ target.canonical ++ " on "
      ++ test
  | removeTestLink _ test target => "remove link " ++ target.canonical ++ " from " ++ test

end Action

/-- The actions that settle a report, in its order. -/
structure Plan where
  actions : List Action := []
  deriving DecidableEq, Repr

namespace Plan

/-- The action that settles a finding, if one does. -/
def settle (registry : Registry) (production : Production.Index) (options : Policy)
    (f : Finding) : Option Action := do
  let target ← f.target
  let record ← registry.get? f.test
  match f.kind with
  | .missingTestedBy =>
    if options.prune then some (.removeTestLink record f.test target)
    else
      let entry ← production.method? target
      some (.addBackReference entry.file target (.ofIdentifier f.test))
  | .missingTestLink => some (.addTestLink record f.test target !options.linkOnly)
  | _ => none

/-- The plan that settles a report. -/
def ofReport (registry : Registry) (production : Production.Index) (options : Policy)
    (findings : List Finding) : Plan :=
  ⟨findings.filterMap (settle registry production options)⟩

/-- The files that actions change, each once, sorted. -/
def filesOf (actions : List Action) : List Path :=
  ((actions.map Action.file).mergeSort fun a b => (a.cmp b).isLE).eraseRepsBy Path.same

/-- The actions for every file, the files sorted and the actions in their order. -/
def grouped (p : Plan) : List (Path × List Action) :=
  (filesOf p.actions).map fun file => (file, p.actions.filter fun a => a.file.same file)

end Plan

end Crosslink
