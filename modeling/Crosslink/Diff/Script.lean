/-!
# Edit scripts

A script turns one list into another by keeping, dropping and adding items. `Script.between` keeps
the common start and end of the lists and, of what is left, as much as a longest common
subsequence: it walks the table of the lengths of those from the first items on.

`Edit.before?` and `Edit.after?` are the views of a step: the item it takes from the old list and
the item it puts into the new one.
-/

namespace Crosslink.Diff

/-- One step of a script. -/
inductive Edit (α : Type) where
  | keep (item : α)
  | drop (item : α)
  | add (item : α)
  deriving DecidableEq, Repr

namespace Edit

variable {α : Type}

/-- The item a step takes from the old list. -/
def before? : Edit α → Option α
  | keep x | drop x => some x
  | add _ => none

/-- The item a step puts into the new list. -/
def after? : Edit α → Option α
  | keep x | add x => some x
  | drop _ => none

/-- True when the step changes nothing. -/
def isKeep : Edit α → Bool
  | keep _ => true
  | _ => false

end Edit

namespace Script

variable {α : Type} [DecidableEq α]

/-- The row of the table for `a` and the items below it: for each end of `new`, the length of a
longest common subsequence. `below` is the row without `a`. -/
def nextRow (a : α) : List α → List Nat → List Nat
  | [], _ => [0]
  | b :: bs, below =>
    let right := nextRow a bs below.tail
    (if a = b then below.tail.headD 0 + 1 else max (below.headD 0) (right.headD 0)) :: right

/-- The table of the lengths of longest common subsequences: a row for each end of `old`, longest
first, with an entry for each end of `new`. -/
def table : List α → List α → List (List Nat)
  | [], new => [List.replicate (new.length + 1) 0]
  | a :: as, new =>
    let below := table as new
    nextRow a new (below.headD []) :: below

/-- Walk the table from the first items on. Equal items are kept, and otherwise the old item is
dropped unless only the new one can be given up. -/
def walk : List α → List α → List (List Nat) → List (Edit α)
  | [], new, _ => new.map Edit.add
  | old, [], _ => old.map Edit.drop
  | a :: as, b :: bs, rows =>
    if a = b then Edit.keep a :: walk as bs (rows.tail.map List.tail)
    else if ((rows.headD []).tail.headD 0) ≤ ((rows.tail.headD []).headD 0) then
      Edit.drop a :: walk as (b :: bs) rows.tail
    else Edit.add b :: walk (a :: as) bs (rows.map List.tail)
termination_by old new => old.length + new.length

/-- The items two lists start with in common. -/
def common : List α → List α → List α
  | a :: as, b :: bs => if a = b then a :: common as bs else []
  | _, _ => []

/-- A script from `old` to `new`. -/
def between (old new : List α) : List (Edit α) :=
  let lead := common old new
  let old := old.drop lead.length
  let new := new.drop lead.length
  let trail := (common old.reverse new.reverse).reverse
  let old := old.take (old.length - trail.length)
  let new := new.take (new.length - trail.length)
  lead.map Edit.keep ++ walk old new (table old new) ++ trail.map Edit.keep

end Script

end Crosslink.Diff
