import Mathlib.Data.List.Infix
import Crosslink.Proofs.Scripts

/-!
# What a script keeps

A script keeps a common subsequence of the two lists it stands between, and no longer one exists:
the table holds the lengths of longest common subsequences, the walk keeps as many items as the
entry it starts from says, and what two lists begin and end with in common belongs to some longest
one. Each step of a script has a place in either list, and the places of the steps that take an item
from the one, or put an item into the other, are all places of that list, in their order.

* §1 `lcsLength`, and the subsequences it bounds.
* §2 `table_eq` and `countP_walk`, the table and the walk over it.
* §3 Common starts and ends.
* §4 The places of steps.

## Main statements

* `between_keeps_longest`: where the steps of the script between two lists stand, and how many of
  them keep their item.
-/

namespace Crosslink.Diff

/-! ## 1. Common subsequences -/

section Subsequences

variable {α : Type}

/-- True for a common subsequence of two lists than which none is longer. -/
structure LongestCommon (items old new : List α) : Prop where
  left : items.Sublist old
  right : items.Sublist new
  longest : ∀ others : List α, others.Sublist old → others.Sublist new →
    others.length ≤ items.length

variable [DecidableEq α]

/-- The length of a longest common subsequence. -/
def lcsLength : List α → List α → Nat
  | [], _ => 0
  | _ :: _, [] => 0
  | a :: as, b :: bs =>
    if a = b then lcsLength as bs + 1 else max (lcsLength as (b :: bs)) (lcsLength (a :: as) bs)
termination_by old new => old.length + new.length

@[simp] theorem lcsLength_nil_left (new : List α) : lcsLength [] new = 0 := by
  rw [lcsLength]

@[simp] theorem lcsLength_nil_right (old : List α) : lcsLength old [] = 0 := by
  cases old <;> rw [lcsLength]

theorem lcsLength_cons_self (a : α) (as bs : List α) :
    lcsLength (a :: as) (a :: bs) = lcsLength as bs + 1 := by
  rw [lcsLength, if_pos rfl]

theorem lcsLength_cons_of_ne {a b : α} (h : a ≠ b) (as bs : List α) :
    lcsLength (a :: as) (b :: bs) = max (lcsLength as (b :: bs)) (lcsLength (a :: as) bs) := by
  rw [lcsLength, if_neg h]

/-- No common subsequence is longer. -/
theorem length_le_lcsLength {items old new : List α} (hold : items.Sublist old)
    (hnew : items.Sublist new) : items.length ≤ lcsLength old new := by
  fun_induction lcsLength old new generalizing items with
  | case1 new => simp [List.sublist_nil.mp hold]
  | case2 a as => simp [List.sublist_nil.mp hnew]
  | case3 as b bs ih =>
    cases items with
    | nil => exact Nat.zero_le _
    | cons x rest =>
      have hrest := ih (List.Sublist.of_cons_cons hold) (List.Sublist.of_cons_cons hnew)
      simpa using hrest
  | case4 a as b bs hne ihold ihnew =>
    cases items with
    | nil => exact Nat.zero_le _
    | cons x rest =>
      -- the first item is not the head of both lists, so one of the heads is skipped
      by_cases hx : x = a
      · subst hx
        exact Nat.le_trans (ihnew hold (hnew.of_cons_of_ne hne)) (Nat.le_max_right _ _)
      · exact Nat.le_trans (ihold (hold.of_cons_of_ne hx) hnew) (Nat.le_max_left _ _)

end Subsequences

/-! ## 2. The table and the walk -/

section Keeping

variable {α : Type}

/-- The item a step keeps. -/
def Edit.kept? : Edit α → Option α
  | keep x => some x
  | drop _ | add _ => none

/-- How many steps of a script keep their item. -/
def countKept (script : List (Edit α)) : Nat := script.countP Edit.isKeep

@[simp] theorem countKept_keep (x : α) (script : List (Edit α)) :
    countKept (.keep x :: script) = countKept script + 1 := List.countP_cons_of_pos rfl

@[simp] theorem countKept_drop (x : α) (script : List (Edit α)) :
    countKept (.drop x :: script) = countKept script := List.countP_cons_of_neg Bool.false_ne_true

@[simp] theorem countKept_add (x : α) (script : List (Edit α)) :
    countKept (.add x :: script) = countKept script := List.countP_cons_of_neg Bool.false_ne_true

@[simp] theorem countKept_append (script script' : List (Edit α)) :
    countKept (script ++ script') = countKept script + countKept script' := List.countP_append

theorem countKept_map_of_change {f : α → Edit α} (h : ∀ x, (f x).isKeep = false) (items : List α) :
    countKept (items.map f) = 0 := by
  rw [countKept, List.countP_map, List.countP_eq_zero]
  intro x _
  simp [h x]

theorem countKept_map_keep (items : List α) : countKept (items.map Edit.keep) = items.length := by
  induction items with
  | nil => rfl
  | cons x rest ih => rw [List.map_cons, countKept_keep, ih, List.length_cons]

theorem length_filterMap_kept (script : List (Edit α)) :
    (script.filterMap Edit.kept?).length = countKept script := by
  induction script with
  | nil => rfl
  | cons e rest ih => cases e <;> simp [List.filterMap_cons, Edit.kept?, ih]

/-- What is kept is a subsequence of what a view shows, when the view shows it. -/
theorem filterMap_kept_sublist (view : Edit α → Option α) (h : ∀ x, view (.keep x) = some x)
    (script : List (Edit α)) : (script.filterMap Edit.kept?).Sublist (script.filterMap view) := by
  induction script with
  | nil => exact .slnil
  | cons e rest ih =>
    cases e with
    | keep x => simpa [Edit.kept?, h x] using ih
    | drop x =>
      rw [List.filterMap_cons_none rfl, List.filterMap_cons]
      split
      · exact ih
      · exact ih.cons _
    | add x =>
      rw [List.filterMap_cons_none rfl, List.filterMap_cons]
      split
      · exact ih
      · exact ih.cons _

end Keeping

namespace Script

variable {α : Type} [DecidableEq α]

theorem nextRow_eq (a : α) (as new : List α) :
    nextRow a new (new.tails.map (lcsLength as)) = new.tails.map (lcsLength (a :: as)) := by
  induction new with
  | nil => simp [nextRow]
  | cons b bs ih =>
    have hhead : ∀ o : List α, (bs.tails.map (lcsLength o)).headD 0 = lcsLength o bs := by
      intro o
      cases bs <;> simp
    simp only [List.tails_cons, List.map_cons, nextRow, List.tail_cons, List.headD_cons, ih, hhead,
      List.cons.injEq, and_true]
    by_cases h : a = b
    · rw [if_pos h, h, lcsLength_cons_self]
    · rw [if_neg h, lcsLength_cons_of_ne h]

/-- The table holds the lengths of longest common subsequences of all ends of the two lists. -/
theorem table_eq (old new : List α) :
    table old new = old.tails.map fun o => new.tails.map (lcsLength o) := by
  induction old with
  | nil =>
    have hzero : (lcsLength ([] : List α)) = fun _ => 0 := funext lcsLength_nil_left
    simp [table, hzero, List.map_const']
  | cons a as ih =>
    have hhead : (as.tails.map fun o => new.tails.map (lcsLength o)).headD [] =
        new.tails.map (lcsLength as) := by
      cases as <;> simp
    simp only [table, ih, hhead, nextRow_eq, List.tails_cons, List.map_cons]

theorem table_tail (a : α) (as new : List α) : (table (a :: as) new).tail = table as new := rfl

theorem table_map_tail (old : List α) (b : α) (bs : List α) :
    (table old (b :: bs)).map List.tail = table old bs := by
  simp only [table_eq, List.map_map]
  rfl

/-- The entry for a list and for what is below the first item of another. -/
theorem headD_table (old : List α) (b : α) (bs : List α) :
    ((table old (b :: bs)).headD []).tail.headD 0 = lcsLength old bs := by
  rw [table_eq]
  cases old <;> cases bs <;> simp

theorem headD_table_tail (a : α) (as new : List α) :
    ((table (a :: as) new).tail.headD []).headD 0 = lcsLength as new := by
  rw [table_tail, table_eq]
  cases as <;> cases new <;> simp

/-- The walk over the table of two lists keeps as many items as a longest common subsequence
has. -/
theorem countKept_walk (old new : List α) :
    countKept (walk old new (table old new)) = lcsLength old new := by
  generalize hrows : table old new = rows
  fun_induction walk old new rows with
  | case1 new rows => rw [countKept_map_of_change (fun _ => rfl), lcsLength_nil_left]
  | case2 old rows => rw [countKept_map_of_change (fun _ => rfl), lcsLength_nil_right]
  | case3 as b bs rows ih =>
    rw [countKept_keep, lcsLength_cons_self, ih (by rw [← hrows, table_tail, table_map_tail])]
  | case4 a as b bs rows hne hle ih =>
    -- the entry without `a` is the larger one
    rw [countKept_drop, lcsLength_cons_of_ne hne, ih (by rw [← hrows, table_tail])]
    rw [← hrows, headD_table_tail, headD_table] at hle
    exact (Nat.max_eq_left hle).symm
  | case5 a as b bs rows hne hle ih =>
    have hrest : countKept (walk (a :: as) bs (rows.map List.tail)) = lcsLength (a :: as) bs := by
      simpa [← hrows, table_map_tail] using ih
    rw [countKept_add, lcsLength_cons_of_ne hne, hrest]
    rw [← hrows, headD_table_tail, headD_table] at hle
    exact (Nat.max_eq_right (Nat.le_of_not_le hle)).symm

/-! ## 3. Common starts and ends -/

/-- A common subsequence as long as `lcsLength` says. -/
theorem exists_longestCommon (old new : List α) :
    ∃ items, LongestCommon items old new ∧ items.length = lcsLength old new := by
  have hold := filterMap_kept_sublist Edit.before? (fun _ => rfl)
    (walk old new (table old new))
  have hnew := filterMap_kept_sublist Edit.after? (fun _ => rfl)
    (walk old new (table old new))
  rw [before_walk] at hold
  rw [after_walk] at hnew
  have hlength := (length_filterMap_kept _).trans (countKept_walk old new)
  refine ⟨_, ⟨hold, hnew, fun others ho hn => ?_⟩, hlength⟩
  rw [hlength]
  exact length_le_lcsLength ho hn

theorem lcsLength_le_reverse (old new : List α) :
    lcsLength old new ≤ lcsLength old.reverse new.reverse := by
  obtain ⟨items, h, hlength⟩ := exists_longestCommon old new
  rw [← hlength, ← List.length_reverse]
  exact length_le_lcsLength h.left.reverse h.right.reverse

theorem lcsLength_reverse (old new : List α) :
    lcsLength old.reverse new.reverse = lcsLength old new := by
  refine Nat.le_antisymm ?_ (lcsLength_le_reverse old new)
  simpa using lcsLength_le_reverse old.reverse new.reverse

/-- What two lists begin with in common belongs to a longest common subsequence. -/
theorem lcsLength_append_left (lead old new : List α) :
    lcsLength (lead ++ old) (lead ++ new) = lead.length + lcsLength old new := by
  induction lead with
  | nil => simp
  | cons x rest ih =>
    rw [List.cons_append, List.cons_append, lcsLength_cons_self, ih, List.length_cons]
    omega

/-- And so does what they end with in common. -/
theorem lcsLength_append_right (old new trail : List α) :
    lcsLength (old ++ trail) (new ++ trail) = lcsLength old new + trail.length := by
  rw [← lcsLength_reverse, List.reverse_append, List.reverse_append, lcsLength_append_left,
    lcsLength_reverse, List.length_reverse, Nat.add_comm]

/-- Two lists are what they begin with in common, what the table is made of, and what they end with
in common, and the script between them is put together from these. -/
theorem exists_parts (old new : List α) :
    ∃ lead o n trail : List α, old = lead ++ (o ++ trail) ∧ new = lead ++ (n ++ trail) ∧
      between old new = lead.map Edit.keep ++ walk o n (table o n) ++ trail.map Edit.keep := by
  obtain ⟨hlead, hlead'⟩ := common_starts old new
  generalize ho : old.drop (common old new).length = o
  generalize hn : new.drop (common old new).length = n
  obtain ⟨htrail, htrail'⟩ := common_starts o.reverse n.reverse
  rw [← List.reverse_suffix, List.reverse_reverse] at htrail htrail'
  generalize ht : (common o.reverse n.reverse).reverse = trail at htrail htrail'
  refine ⟨common old new, o.take (o.length - trail.length), n.take (n.length - trail.length), trail,
    ?_, ?_, ?_⟩
  · rw [take_append_of_suffix htrail, ← ho, append_drop_of_prefix hlead]
  · rw [take_append_of_suffix htrail', ← hn, append_drop_of_prefix hlead']
  · simp only [between, ho, hn, ht]

/-- The script between two lists keeps as many items as a longest common subsequence has. -/
theorem countKept_between (old new : List α) : countKept (between old new) = lcsLength old new := by
  obtain ⟨lead, o, n, trail, rfl, rfl, hbetween⟩ := exists_parts old new
  rw [hbetween, countKept_append, countKept_append, countKept_map_keep, countKept_map_keep,
    countKept_walk, lcsLength_append_left, lcsLength_append_right, Nat.add_assoc]

end Script

/-! ## 4. The places of steps -/

section Places

variable {α : Type}

/-- A step of a script, with the numbers of old and of new items that the steps before it show. -/
structure Placed (α : Type) where
  step : Edit α
  old : Nat
  new : Nat

namespace Placed

/-- The place of the item that a step takes from the old list. -/
def old? (p : Placed α) : Option Nat := p.step.before?.map fun _ => p.old

/-- The place of the item that a step puts into the new list. -/
def new? (p : Placed α) : Option Nat := p.step.after?.map fun _ => p.new

end Placed

/-- The steps of a script with their places, the first step standing at these. -/
def placedFrom (old new : Nat) : List (Edit α) → List (Placed α)
  | [] => []
  | e :: rest =>
    ⟨e, old, new⟩ :: placedFrom (old + e.before?.toList.length) (new + e.after?.toList.length) rest

/-- The steps of a script with their places. -/
def placed (script : List (Edit α)) : List (Placed α) := placedFrom 0 0 script

variable {script : List (Edit α)} {i j : Nat} {p : Placed α}

theorem old?_placedFrom : (placedFrom i j script).filterMap Placed.old? =
    List.range' i (script.filterMap Edit.before?).length := by
  induction script generalizing i j with
  | nil => rfl
  | cons e rest ih =>
    cases e <;> simp [placedFrom, Placed.old?, Edit.before?, List.filterMap_cons, ih, List.range'_succ]

theorem new?_placedFrom : (placedFrom i j script).filterMap Placed.new? =
    List.range' j (script.filterMap Edit.after?).length := by
  induction script generalizing i j with
  | nil => rfl
  | cons e rest ih =>
    cases e <;> simp [placedFrom, Placed.new?, Edit.after?, List.filterMap_cons, ih, List.range'_succ]

theorem length_filterMap_cons (view : Edit α → Option α) (e : Edit α) (script : List (Edit α)) :
    ((e :: script).filterMap view).length =
      (view e).toList.length + (script.filterMap view).length := by
  cases h : view e <;> simp [h, Nat.add_comm]

/-- A step stands behind what the steps before it show. -/
theorem exists_of_mem_placedFrom (h : p ∈ placedFrom i j script) :
    ∃ earlier later, script = earlier ++ p.step :: later ∧
      p.old = i + (earlier.filterMap Edit.before?).length ∧
      p.new = j + (earlier.filterMap Edit.after?).length := by
  induction script generalizing i j with
  | nil => cases h
  | cons e rest ih =>
    obtain rfl | h := List.mem_cons.mp h
    · exact ⟨[], rest, rfl, rfl, rfl⟩
    · obtain ⟨earlier, later, rfl, hold, hnew⟩ := ih h
      refine ⟨e :: earlier, later, rfl, ?_, ?_⟩
      · rw [hold, length_filterMap_cons, Nat.add_assoc]
      · rw [hnew, length_filterMap_cons, Nat.add_assoc]

/-- The item a step takes stands at its place in the old list. -/
theorem getElem?_of_before {x : α} (h : p ∈ placed script) (hx : p.step.before? = some x) :
    (script.filterMap Edit.before?)[p.old]? = some x := by
  obtain ⟨earlier, later, rfl, hold, -⟩ := exists_of_mem_placedFrom h
  rw [hold, List.filterMap_append, List.filterMap_cons_some hx]
  simp

/-- The item a step puts in stands at its place in the new list. -/
theorem getElem?_of_after {x : α} (h : p ∈ placed script) (hx : p.step.after? = some x) :
    (script.filterMap Edit.after?)[p.new]? = some x := by
  obtain ⟨earlier, later, rfl, -, hnew⟩ := exists_of_mem_placedFrom h
  rw [hnew, List.filterMap_append, List.filterMap_cons_some hx]
  simp

end Places

/-- **What the script between two lists keeps.** Its steps go through all places of the old list and
all places of the new one, each once and in their order; what a step takes, puts in or keeps is the
item at its place, so that only equal items are kept; and as many are kept as a longest common
subsequence of the two lists has. -/
theorem between_keeps_longest {α : Type} [DecidableEq α] (old new : List α) :
    (placed (Script.between old new)).filterMap Placed.old? = List.range old.length ∧
    (placed (Script.between old new)).filterMap Placed.new? = List.range new.length ∧
    (∀ p ∈ placed (Script.between old new), ∀ x,
      (p.step.before? = some x → old[p.old]? = some x) ∧
      (p.step.after? = some x → new[p.new]? = some x) ∧
      (p.step = .keep x → old[p.old]? = some x ∧ new[p.new]? = some x)) ∧
    ∃ items, LongestCommon items old new ∧ countKept (Script.between old new) = items.length := by
  have hold := Script.before_between old new
  have hnew := Script.after_between old new
  have hkept := Script.countKept_between old new
  generalize Script.between old new = script at hold hnew hkept ⊢
  refine ⟨?_, ?_, fun p hp x => ?_, ?_⟩
  · rw [placed, old?_placedFrom, hold, List.range_eq_range']
  · rw [placed, new?_placedFrom, hnew, List.range_eq_range']
  · have hbefore : p.step.before? = some x → old[p.old]? = some x := fun hx =>
      hold ▸ getElem?_of_before hp hx
    have hafter : p.step.after? = some x → new[p.new]? = some x := fun hx =>
      hnew ▸ getElem?_of_after hp hx
    exact ⟨hbefore, hafter, fun hx => ⟨hbefore (by rw [hx]; rfl), hafter (by rw [hx]; rfl)⟩⟩
  · obtain ⟨items, hlongest, hlength⟩ := Script.exists_longestCommon old new
    exact ⟨items, hlongest, hkept.trans hlength.symm⟩

/-- What two lists begin and end with in common is kept, and in the middle the walk gives up an old
item before a new one. -/
example : Script.between [1, 2, 3, 4, 5] [1, 3, 2, 6, 5] =
    [.keep 1, .drop 2, .keep 3, .drop 4, .add 2, .add 6, .keep 5] := by cbv

end Crosslink.Diff
