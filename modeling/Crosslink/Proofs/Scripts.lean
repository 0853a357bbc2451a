import Crosslink.Diff.Unified

/-!
# What a script leads from and to

The steps of a script take items from an old list and put items into a new one. This module says
that the script between two lists takes all of the one and makes all of the other, and where the
hunks of a script stand: one behind the other, with steps that keep their items between them.

## Main statements

* `before_between`, `after_between`: the script between two lists leads from the first to the
  second.
* `covers_hunks`: what stands outside the hunks of a script is kept.
-/

namespace Crosslink.Diff

/-! ## 1. Views of a script -/

section Views

variable {α : Type} {script : List (Edit α)}

theorem filterMap_before_map {f : α → Edit α} (h : ∀ x, (f x).before? = some x) (items : List α) :
    (items.map f).filterMap Edit.before? = items := by
  rw [List.filterMap_map, show Edit.before? ∘ f = some from funext h, List.filterMap_some]

theorem filterMap_after_map {f : α → Edit α} (h : ∀ x, (f x).after? = some x) (items : List α) :
    (items.map f).filterMap Edit.after? = items := by
  rw [List.filterMap_map, show Edit.after? ∘ f = some from funext h, List.filterMap_some]

theorem filterMap_map_none {β : Type} {f : α → Edit α} {g : Edit α → Option β}
    (h : ∀ x, g (f x) = none) (items : List α) : (items.map f).filterMap g = [] := by
  rw [List.filterMap_map]
  exact List.filterMap_eq_nil_iff.mpr fun x _ => h x

/-- Steps that keep their items show the same in both views. -/
theorem views_of_kept (h : ∀ e ∈ script, e.isKeep = true) :
    script.filterMap Edit.after? = script.filterMap Edit.before? := by
  induction script with
  | nil => rfl
  | cons e rest ih =>
    have hrest := ih fun e' he' => h e' (List.mem_cons_of_mem _ he')
    cases e with
    | keep x => simp [Edit.before?, Edit.after?, hrest]
    | drop x => exact absurd (h _ List.mem_cons_self) Bool.false_ne_true
    | add x => exact absurd (h _ List.mem_cons_self) Bool.false_ne_true

end Views

namespace Script

variable {α : Type} [DecidableEq α]

theorem before_walk (old new : List α) (rows : List (List Nat)) :
    (walk old new rows).filterMap Edit.before? = old := by
  fun_induction walk old new rows with
  | case1 new rows => exact filterMap_map_none (fun _ => rfl) new
  | case2 old rows => exact filterMap_before_map (fun _ => rfl) old
  | case3 as a bs rows ih => simpa [Edit.before?, List.filterMap_cons] using ih
  | case4 a as b bs rows _ _ ih => simpa [Edit.before?, List.filterMap_cons] using ih
  | case5 a as b bs rows _ _ ih => simpa [Edit.before?, List.filterMap_cons] using ih

theorem after_walk (old new : List α) (rows : List (List Nat)) :
    (walk old new rows).filterMap Edit.after? = new := by
  fun_induction walk old new rows with
  | case1 new rows => exact filterMap_after_map (fun _ => rfl) new
  | case2 old rows => exact filterMap_map_none (fun _ => rfl) old
  | case3 as a bs rows ih => simpa [Edit.after?, List.filterMap_cons] using ih
  | case4 a as b bs rows _ _ ih => simpa [Edit.after?, List.filterMap_cons] using ih
  | case5 a as b bs rows _ _ ih => simpa [Edit.after?, List.filterMap_cons] using ih

theorem common_starts (old new : List α) : common old new <+: old ∧ common old new <+: new := by
  fun_induction common old new with
  | case1 as a bs ih =>
    exact ⟨(List.prefix_cons_inj a).mpr ih.1, (List.prefix_cons_inj a).mpr ih.2⟩
  | case2 => exact ⟨List.nil_prefix, List.nil_prefix⟩
  | case3 => exact ⟨List.nil_prefix, List.nil_prefix⟩

omit [DecidableEq α] in
theorem take_append_of_suffix {trail l : List α} (h : trail <:+ l) :
    l.take (l.length - trail.length) ++ trail = l := by
  obtain ⟨lead, rfl⟩ := h
  simp

omit [DecidableEq α] in
theorem append_drop_of_prefix {lead l : List α} (h : lead <+: l) :
    lead ++ l.drop lead.length = l := by
  obtain ⟨rest, rfl⟩ := h
  simp

/-- The script between two lists takes the first one. -/
theorem before_between (old new : List α) :
    (between old new).filterMap Edit.before? = old := by
  obtain ⟨hlead, -⟩ := common_starts old new
  generalize ho : old.drop (common old new).length = o
  have htrail : (common o.reverse (new.drop (common old new).length).reverse).reverse <:+ o := by
    rw [← List.reverse_prefix, List.reverse_reverse]
    exact (common_starts _ _).1
  simp only [between, ho, List.filterMap_append, before_walk,
    filterMap_before_map (f := Edit.keep) fun _ => rfl, List.append_assoc]
  rw [take_append_of_suffix htrail, ← ho, append_drop_of_prefix hlead]

/-- The script between two lists makes the second one. -/
theorem after_between (old new : List α) : (between old new).filterMap Edit.after? = new := by
  obtain ⟨-, hlead⟩ := common_starts old new
  generalize hn : new.drop (common old new).length = n
  have htrail : (common (old.drop (common old new).length).reverse n.reverse).reverse <:+ n := by
    rw [← List.reverse_prefix, List.reverse_reverse]
    exact (common_starts _ _).2
  simp only [between, hn, List.filterMap_append, after_walk,
    filterMap_after_map (f := Edit.keep) fun _ => rfl, List.append_assoc]
  rw [take_append_of_suffix htrail, ← hn, append_drop_of_prefix hlead]

end Script

/-! ## 2. Where the hunks stand -/

/-- True when ranges of steps stand one behind the other from `start` on, and all steps that are in
none of them keep their items. -/
def Covers (script : List (Edit Text)) (start : Nat) : List (Nat × Nat) → Prop
  | [] => ∀ e ∈ script.drop start, e.isKeep = true
  | (s, t) :: rest =>
    start ≤ s ∧ s ≤ t ∧ t ≤ script.length ∧
      (∀ e ∈ (script.drop start).take (s - start), e.isKeep = true) ∧ Covers script t rest

/-- All steps from the one numbered `i` up to the one numbered `j` keep their items. -/
def KeepsFrom (script : List (Edit Text)) (i j : Nat) : Prop :=
  ∀ k e, i ≤ k → k < j → script[k]? = some e → e.isKeep = true

section Ranges

variable {script : List (Edit Text)} {i j : Nat}

theorem KeepsFrom.of_le (h : j ≤ i) : KeepsFrom script i j :=
  fun _ _ hik hkj _ => absurd (Nat.lt_of_le_of_lt hik hkj) (Nat.not_lt.mpr h)

theorem KeepsFrom.succ {e : Edit Text} (h : KeepsFrom script i j) (he : script[j]? = some e)
    (hkeep : e.isKeep = true) : KeepsFrom script i (j + 1) := by
  intro k e' hik hkj hk
  rcases Nat.lt_or_eq_of_le (Nat.le_of_lt_succ hkj) with hlt | rfl
  · exact h k e' hik hlt hk
  · obtain rfl := Option.some.inj (he.symm.trans hk)
    exact hkeep

theorem KeepsFrom.take_drop (h : KeepsFrom script i j) :
    ∀ e ∈ (script.drop i).take (j - i), e.isKeep = true := by
  intro e he
  obtain ⟨k, hk⟩ := List.mem_iff_getElem?.mp he
  rw [List.getElem?_take] at hk
  split at hk
  · rename_i hlt
    rw [List.getElem?_drop] at hk
    exact h (i + k) e (by omega) (by omega) hk
  · cases hk

theorem KeepsFrom.drop (h : KeepsFrom script i script.length) :
    ∀ e ∈ script.drop i, e.isKeep = true := by
  have := h.take_drop
  rwa [List.take_of_length_le (by simp)] at this

/-- The range being built goes on until the first change that is too far behind it. -/
theorem covers_open {start s t index : Nat} {rest : List (Edit Text)}
    (hrest : script.drop index = rest) (hindex : index ≤ script.length)
    (hstart : start ≤ s) (hst : s ≤ t) (ht : t ≤ script.length)
    (hbefore : KeepsFrom script start s) (hbehind : KeepsFrom script t index) :
    Covers script start (hunks script.length (some (s, t)) index rest) := by
  induction rest generalizing start s t index with
  | nil =>
    have hend : index = script.length := by
      have := List.drop_eq_nil_iff.mp hrest
      omega
    subst hend
    exact ⟨hstart, hst, ht, hbefore.take_drop, hbehind.drop⟩
  | cons e rest ih =>
    have he : script[index]? = some e := by
      rw [← List.head?_drop, hrest, List.head?_cons]
    have hlt : index < script.length := (List.getElem?_eq_some_iff.mp he).1
    have htail : script.drop (index + 1) = rest := by
      rw [← List.drop_drop, hrest, List.drop_one, List.tail_cons]
    rw [hunks]
    split
    · rename_i hkeep
      exact ih htail hlt hstart hst ht hbefore (hbehind.succ he hkeep)
    · dsimp only
      split
      · exact ih htail hlt hstart (by omega) (by omega) hbefore (.of_le (by omega))
      · rename_i hfar
        refine ⟨hstart, hst, ht, hbefore.take_drop, ?_⟩
        exact ih htail hlt (by omega) (by omega) (by omega)
          (fun k e' htk hk => hbehind k e' htk (by omega)) (.of_le (by omega))

theorem covers_closed {index : Nat} {rest : List (Edit Text)} (hrest : script.drop index = rest)
    (hindex : index ≤ script.length) (hkept : KeepsFrom script 0 index) :
    Covers script 0 (hunks script.length none index rest) := by
  induction rest generalizing index with
  | nil =>
    have hend : index = script.length := by
      have := List.drop_eq_nil_iff.mp hrest
      omega
    subst hend
    exact hkept.drop
  | cons e rest ih =>
    have he : script[index]? = some e := by
      rw [← List.head?_drop, hrest, List.head?_cons]
    have hlt : index < script.length := (List.getElem?_eq_some_iff.mp he).1
    have htail : script.drop (index + 1) = rest := by
      rw [← List.drop_drop, hrest, List.drop_one, List.tail_cons]
    rw [hunks]
    split
    · rename_i hkeep
      exact ih htail hlt (hkept.succ he hkeep)
    · exact covers_open htail hlt (Nat.zero_le _) (by omega) (by omega)
        (fun k e' _ hk => hkept k e' (Nat.zero_le _) (by omega)) (.of_le (by omega))

end Ranges

/-- What stands outside the hunks of a script is kept. -/
theorem covers_hunks (script : List (Edit Text)) :
    Covers script 0 (hunks script.length none 0 script) :=
  covers_closed rfl (Nat.zero_le _) (.of_le (Nat.le_refl 0))

end Crosslink.Diff
