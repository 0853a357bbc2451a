import Mathlib.Data.List.Pairwise
import Mathlib.Logic.ExistsUnique
import Mathlib.Tactic.ByContra
import Crosslink.Proofs.Patching

/-!
# The hunks of a diff

A diff can be read backwards, too: with the two parts of each header exchanged and what is dropped
taken for added, its hunks turn the new version into the old one. Each hunk says where its lines
stand in either version, and together they show what is changed, with three unchanged lines around
it and no others.

* §1 Scripts and hunks read backwards.
* §2 `NearChange`, the steps that hunks are made of, and `framed_hunks`.
* §3 `Hunk.Describes`, a hunk and the versions it is about.

## Main statements

* `unpatch_unified`: the diff of two versions turns the second back into the first.
* `unified_exact`: when a diff is empty, what it makes of both versions, and which hunks it has.
-/

namespace Crosslink.Diff

variable {α : Type} {script : List (Edit Text)} {ranges : List (Nat × Nat)} {r : Nat × Nat}
  {i j s t : Nat}

/-! ## 1. Backwards -/

/-- The step that takes back what a step does. -/
def Edit.flip : Edit α → Edit α
  | keep x => keep x
  | drop x => add x
  | add x => drop x

@[simp] theorem Edit.before?_flip (e : Edit α) : e.flip.before? = e.after? := by cases e <;> rfl

@[simp] theorem Edit.after?_flip (e : Edit α) : e.flip.after? = e.before? := by cases e <;> rfl

@[simp] theorem Edit.isKeep_flip (e : Edit α) : e.flip.isKeep = e.isKeep := by cases e <;> rfl

/-- The hunk that takes back what a hunk does. -/
def Hunk.reversed (h : Hunk) : Hunk := ⟨h.new, h.old, h.steps.map Edit.flip⟩

/-- The old version of the file named `path` that a diff makes of a new one, read backwards. -/
def unpatch (path diff new : Text) : Option Text :=
  if diff = [] then some new
  else do
    let hunks ← Patch.readHunks path diff
    let made ← Patch.applyHunks 0 0 (Text.lines new) (hunks.map Hunk.reversed)
    return made.flatten

theorem before_flip (script : List (Edit Text)) :
    (script.map Edit.flip).filterMap Edit.before? = script.filterMap Edit.after? := by
  rw [List.filterMap_map]
  exact congrArg (fun f => script.filterMap f) (funext Edit.before?_flip)

theorem after_flip (script : List (Edit Text)) :
    (script.map Edit.flip).filterMap Edit.after? = script.filterMap Edit.before? := by
  rw [List.filterMap_map]
  exact congrArg (fun f => script.filterMap f) (funext Edit.after?_flip)

theorem stepsFrom_flip (script : List (Edit Text)) (i j : Nat) :
    stepsFrom (script.map Edit.flip) i j = (stepsFrom script i j).map Edit.flip := by
  rw [stepsFrom, ← List.map_drop, ← List.map_take]
  rfl

theorem hunkOf_flip (script : List (Edit Text)) (r : Nat × Nat) :
    hunkOf (script.map Edit.flip) r = (hunkOf script r).reversed := by
  simp only [hunkOf, Hunk.reversed, stepsFrom_flip, seenBefore, shownIn, ← List.map_take,
    before_flip, after_flip]

theorem covers_flip (h : Covers script i ranges) : Covers (script.map Edit.flip) i ranges := by
  have hkept : ∀ steps : List (Edit Text), (∀ e ∈ steps, e.isKeep = true) →
      ∀ e ∈ steps.map Edit.flip, e.isKeep = true := by
    intro steps hsteps e he
    obtain ⟨e', he', rfl⟩ := List.mem_map.mp he
    rw [Edit.isKeep_flip]
    exact hsteps e' he'
  induction ranges generalizing i with
  | nil =>
    intro e he
    rw [← List.map_drop] at he
    exact hkept _ h e he
  | cons r rest ih =>
    obtain ⟨s, t⟩ := r
    obtain ⟨hstart, hst, hlen, hbetween, hrest⟩ := h
    refine ⟨hstart, hst, by rwa [List.length_map], ?_, ih hrest⟩
    rw [← List.map_drop, ← List.map_take]
    exact hkept _ hbetween

/-- The diff of two versions turns the second back into the first. -/
theorem unpatch_unified (path old new : Text) :
    unpatch path (unified path old new) new = some old := by
  by_cases h : old = new
  · simp [unpatch, unified, h]
  · have hne : unified path old new ≠ [] := by simp [unified, h]
    have hold := Script.before_between (Text.lines old) (Text.lines new)
    have hnew := Script.after_between (Text.lines old) (Text.lines new)
    rw [unpatch, if_neg hne, Patch.readHunks_unified h]
    generalize Script.between (Text.lines old) (Text.lines new) = script at hold hnew ⊢
    have hmade := Patch.applyHunks_covers (covers_flip (covers_hunks script))
    have hreversed : (hunks script.length none 0 script).map (hunkOf (script.map Edit.flip)) =
        (hunksOf script).map Hunk.reversed := by
      rw [hunksOf, List.map_map]
      exact List.map_congr_left fun r _ => hunkOf_flip script r
    rw [List.drop_zero, before_flip, after_flip, hold, hnew, hreversed] at hmade
    simp only [Option.bind_eq_bind, Option.bind_some]
    rw [show seenBefore Edit.before? (script.map Edit.flip) 0 = 0 from rfl,
      show seenBefore Edit.after? (script.map Edit.flip) 0 = 0 from rfl] at hmade
    rw [hmade, Option.bind_some, Text.flatten_lines]
    rfl

/-! ## 2. What hunks are made of -/

/-- The step numbered `i` changes something. -/
def ChangedAt (script : List (Edit Text)) (i : Nat) : Prop :=
  ∃ e, script[i]? = some e ∧ e.isKeep = false

/-- The step numbered `i` stands at most three steps from one, numbered `start` or later, that
changes something. -/
def NearChange (script : List (Edit Text)) (start i : Nat) : Prop :=
  i < script.length ∧ ∃ j, start ≤ j ∧ ChangedAt script j ∧ i ≤ j + context ∧ j ≤ i + context

/-- The step numbered `i` is in one of the ranges. -/
def Shown (ranges : List (Nat × Nat)) (i : Nat) : Prop := ∃ r ∈ ranges, r.1 ≤ i ∧ i < r.2

/-- Ranges that stand one behind the other, with a step between each and the next, and hold the
steps near a change and no others. -/
structure Framed (script : List (Edit Text)) (ranges : List (Nat × Nat)) : Prop where
  apart : ranges.Pairwise fun r r' => r.2 < r'.1
  within : ∀ r ∈ ranges, r.1 < r.2 ∧ r.2 ≤ script.length
  shown : ∀ i, Shown ranges i ↔ NearChange script 0 i

theorem nearChange_of_keep {e : Edit Text} (he : script[j]? = some e) (hkeep : e.isKeep = true) :
    NearChange script j i ↔ NearChange script (j + 1) i := by
  refine and_congr_right fun _ => exists_congr fun m => ?_
  refine ⟨fun ⟨hjm, hm, hnear⟩ => ⟨?_, hm, hnear⟩, fun ⟨hjm, hm, hnear⟩ => ⟨by omega, hm, hnear⟩⟩
  refine Nat.lt_of_le_of_ne hjm ?_
  rintro rfl
  obtain ⟨e', he', hchange⟩ := hm
  obtain rfl := Option.some.inj (he.symm.trans he')
  rw [hkeep] at hchange
  cases hchange

theorem nearChange_of_change {e : Edit Text} (he : script[j]? = some e) (hchange : e.isKeep = false) :
    NearChange script j i ↔
      (j - context ≤ i ∧ i < min (j + 1 + context) script.length) ∨ NearChange script (j + 1) i := by
  constructor
  · rintro ⟨hi, m, hjm, hm, hnear⟩
    by_cases hmj : m = j
    · subst hmj
      exact .inl (by omega)
    · exact .inr ⟨hi, m, by omega, hm, hnear⟩
  · rintro (h | ⟨hi, m, hjm, hm, hnear⟩)
    · exact ⟨by omega, j, Nat.le_refl j, ⟨e, he, hchange⟩, by omega, by omega⟩
    · exact ⟨hi, m, by omega, hm, hnear⟩

theorem not_nearChange_of_length_le (h : script.length ≤ j) : ¬ NearChange script j i := by
  rintro ⟨-, m, hjm, ⟨e, he, -⟩, -⟩
  have := (List.getElem?_eq_some_iff.mp he).1
  omega

/-- While a range is being built, what is shown in the end is that range and all steps near a
change to come. -/
theorem framed_open {index : Nat} {rest : List (Edit Text)} (hrest : script.drop index = rest)
    (hindex : index ≤ script.length) (hs : s ≤ index - context) (hst : s < t)
    (ht : t ≤ script.length) :
    (hunks script.length (some (s, t)) index rest).Pairwise (fun r r' => r.2 < r'.1) ∧
      (∀ r ∈ hunks script.length (some (s, t)) index rest,
        s ≤ r.1 ∧ r.1 < r.2 ∧ r.2 ≤ script.length) ∧
      ∀ i, Shown (hunks script.length (some (s, t)) index rest) i ↔
        (s ≤ i ∧ i < t) ∨ NearChange script index i := by
  induction rest generalizing s t index with
  | nil =>
    have hend := List.drop_eq_nil_iff.mp hrest
    have hone : hunks script.length (some (s, t)) index [] = [(s, t)] := rfl
    rw [hone]
    refine ⟨List.pairwise_singleton _ _, by simpa using ⟨hst, ht⟩, fun i => ?_⟩
    have hno := not_nearChange_of_length_le (i := i) hend
    simp [Shown, hno]
  | cons e rest ih =>
    have he : script[index]? = some e := by
      rw [← List.head?_drop, hrest, List.head?_cons]
    have hlt : index < script.length := (List.getElem?_eq_some_iff.mp he).1
    have htail : script.drop (index + 1) = rest := by
      rw [← List.drop_drop, hrest, List.drop_one, List.tail_cons]
    rw [hunks]
    by_cases hkeep : e.isKeep = true
    · rw [if_pos hkeep]
      obtain ⟨hapart, hwithin, hshown⟩ := ih htail hlt (by omega) hst ht
      refine ⟨hapart, hwithin, fun i => ?_⟩
      rw [hshown i, nearChange_of_keep he hkeep]
    · have hchange : e.isKeep = false := by simpa using hkeep
      rw [if_neg hkeep]
      dsimp only
      by_cases hmeet : index - context ≤ t
      · -- the range meets the change, and grows
        rw [if_pos hmeet]
        obtain ⟨hapart, hwithin, hshown⟩ := ih (s := s)
          (t := max t (min (index + 1 + context) script.length)) htail hlt (by omega) (by omega)
          (by omega)
        refine ⟨hapart, hwithin, fun i => ?_⟩
        rw [hshown i, nearChange_of_change he hchange, ← or_assoc]
        refine or_congr_left ?_
        omega
      · -- the range is done, and the change begins another
        rw [if_neg hmeet]
        obtain ⟨hapart, hwithin, hshown⟩ := ih (s := index - context)
          (t := min (index + 1 + context) script.length) htail hlt (by omega) (by omega) (by omega)
        refine ⟨List.pairwise_cons.mpr ⟨fun r hr => ?_, hapart⟩, ?_, fun i => ?_⟩
        · have := (hwithin r hr).1
          omega
        · intro r hr
          obtain rfl | hr := List.mem_cons.mp hr
          · exact ⟨Nat.le_refl s, hst, ht⟩
          · have := hwithin r hr
            exact ⟨by omega, this.2⟩
        · rw [nearChange_of_change he hchange, ← hshown i]
          simp [Shown]

theorem framed_closed {index : Nat} {rest : List (Edit Text)} (hrest : script.drop index = rest)
    (hindex : index ≤ script.length) :
    (hunks script.length none index rest).Pairwise (fun r r' => r.2 < r'.1) ∧
      (∀ r ∈ hunks script.length none index rest, r.1 < r.2 ∧ r.2 ≤ script.length) ∧
      ∀ i, Shown (hunks script.length none index rest) i ↔ NearChange script index i := by
  induction rest generalizing index with
  | nil =>
    have hend := List.drop_eq_nil_iff.mp hrest
    have hnone : hunks script.length none index [] = [] := rfl
    rw [hnone]
    refine ⟨.nil, by simp, fun i => ?_⟩
    have hno := not_nearChange_of_length_le (i := i) hend
    simp [Shown, hno]
  | cons e rest ih =>
    have he : script[index]? = some e := by
      rw [← List.head?_drop, hrest, List.head?_cons]
    have hlt : index < script.length := (List.getElem?_eq_some_iff.mp he).1
    have htail : script.drop (index + 1) = rest := by
      rw [← List.drop_drop, hrest, List.drop_one, List.tail_cons]
    rw [hunks]
    by_cases hkeep : e.isKeep = true
    · rw [if_pos hkeep]
      obtain ⟨hapart, hwithin, hshown⟩ := ih htail hlt
      refine ⟨hapart, hwithin, fun i => ?_⟩
      rw [hshown i, nearChange_of_keep he hkeep]
    · have hchange : e.isKeep = false := by simpa using hkeep
      rw [if_neg hkeep]
      obtain ⟨hapart, hwithin, hshown⟩ := framed_open (s := index - context)
        (t := min (index + 1 + context) script.length) htail hlt (by omega) (by omega) (by omega)
      refine ⟨hapart, fun r hr => (hwithin r hr).2, fun i => ?_⟩
      dsimp only
      rw [hshown i, nearChange_of_change he hchange]

/-- The hunks of a script hold the steps near a change and no others. -/
theorem framed_hunks (script : List (Edit Text)) :
    Framed script (hunks script.length none 0 script) := by
  obtain ⟨hapart, hwithin, hshown⟩ := @framed_closed script 0 script rfl (Nat.zero_le _)
  exact ⟨hapart, hwithin, hshown⟩

/-- Of two ranges one ends before the other begins. -/
theorem Framed.apart_of_ne (h : Framed script ranges) {r' : Nat × Nat} (hr : r ∈ ranges)
    (hr' : r' ∈ ranges) (hne : r ≠ r') : r.2 < r'.1 ∨ r'.2 < r.1 := by
  have hsymm : Std.Symm fun r r' : Nat × Nat => r.2 < r'.1 ∨ r'.2 < r.1 := ⟨fun _ _ => Or.symm⟩
  have heither : ranges.Pairwise fun r r' => r.2 < r'.1 ∨ r'.2 < r.1 := h.apart.imp Or.inl
  exact heither.forall hr hr' hne

/-- A step that changes something is in one range, and in no other. -/
theorem Framed.exists_unique (h : Framed script ranges) (hi : ChangedAt script i) :
    ∃! r, r ∈ ranges ∧ r.1 ≤ i ∧ i < r.2 := by
  have hlt : i < script.length := by
    obtain ⟨e, he, -⟩ := hi
    exact (List.getElem?_eq_some_iff.mp he).1
  obtain ⟨r, hr, hri⟩ := (h.shown i).mpr ⟨hlt, i, Nat.zero_le i, hi, by omega, by omega⟩
  refine ⟨r, ⟨hr, hri⟩, fun r' ⟨hr', hri'⟩ => ?_⟩
  by_contra hne
  have := h.apart_of_ne hr' hr hne
  omega

/-- The step behind a range keeps its item. -/
theorem Framed.keeps_behind (h : Framed script ranges) (hr : r ∈ ranges) :
    ¬ ChangedAt script r.2 := by
  intro hchange
  obtain ⟨r', ⟨hr', hin⟩, -⟩ := h.exists_unique hchange
  have hrr := (h.within r hr).1
  have hne : r' ≠ r := by
    rintro rfl
    omega
  have := h.apart_of_ne hr' hr hne
  omega

/-! ## 3. Hunks and the two versions -/

/-- The header of a hunk gives the number of the first line and the number of lines of what its
steps take from the one version and put into the other, and these lines stand there. -/
structure Hunk.Describes (h : Hunk) (old new : List Text) : Prop where
  old_header : h.old = .behind h.old.before (h.steps.filterMap Edit.before?).length
  new_header : h.new = .behind h.new.before (h.steps.filterMap Edit.after?).length
  old_lines : (old.drop h.old.before).take h.old.count = h.steps.filterMap Edit.before?
  new_lines : (new.drop h.new.before).take h.new.count = h.steps.filterMap Edit.after?

/-- The lines that the steps of a range show in a view stand behind those that earlier steps
show. -/
theorem lines_of_range (view : Edit Text → Option Text) (script : List (Edit Text)) (h : s ≤ t) :
    ((script.filterMap view).drop (seenBefore view script s)).take
        (shownIn view (stepsFrom script s t)) = (stepsFrom script s t).filterMap view := by
  have hsplit : script.filterMap view = (script.take s).filterMap view ++
      ((stepsFrom script s t).filterMap view ++ (script.drop t).filterMap view) := by
    rw [← Patch.filterMap_drop view h, ← List.filterMap_append, List.take_append_drop]
  rw [hsplit, seenBefore, List.drop_left, shownIn, List.take_left]

theorem describes_hunkOf (script : List (Edit Text)) (h : r.1 ≤ r.2) :
    (hunkOf script r).Describes (script.filterMap Edit.before?) (script.filterMap Edit.after?) where
  old_header := by simp [hunkOf, shownIn]
  new_header := by simp [hunkOf, shownIn]
  old_lines := by simpa [hunkOf] using lines_of_range Edit.before? script h
  new_lines := by simpa [hunkOf] using lines_of_range Edit.after? script h

/-- A step that keeps its item shows it in both views. -/
theorem shownIn_pos (view : Edit Text → Option Text) (hview : ∀ x, view (.keep x) = some x)
    {e : Edit Text} (hst : s < t) (he : script[s]? = some e) (hkeep : e.isKeep = true) :
    0 < shownIn view (stepsFrom script s t) := by
  have hmem : e ∈ stepsFrom script s t := by
    refine List.mem_iff_getElem?.mpr ⟨0, ?_⟩
    rw [stepsFrom, List.getElem?_take, if_pos (by omega), List.getElem?_drop, Nat.add_zero, he]
  cases e with
  | keep x => exact List.length_pos_of_mem (List.mem_filterMap.mpr ⟨_, hmem, hview x⟩)
  | drop x => cases hkeep
  | add x => cases hkeep

/-- Between two hunks each version has a line that neither shows. -/
theorem Framed.apart_hunks (h : Framed script ranges) :
    (ranges.map (hunkOf script)).Pairwise fun h h' =>
      h.old.before + h.old.count < h'.old.before ∧ h.new.before + h.new.count < h'.new.before := by
  rw [List.pairwise_map]
  refine h.apart.imp_of_mem fun {r r'} hr hr' hlt => ?_
  have hle := (h.within r hr).1
  have hlen := (h.within r' hr').2
  have hlt' := (h.within r' hr').1
  obtain ⟨e, he⟩ : ∃ e, script[r.2]? = some e := ⟨_, List.getElem?_eq_getElem (by omega)⟩
  have hkeep : e.isKeep = true := by
    by_contra hno
    exact h.keeps_behind hr ⟨e, he, by simpa using hno⟩
  have hgap : ∀ view : Edit Text → Option Text, (∀ x, view (.keep x) = some x) →
      seenBefore view script r.1 + shownIn view (stepsFrom script r.1 r.2) <
        seenBefore view script r'.1 := by
    intro view hview
    have hpos := shownIn_pos view hview hlt he hkeep
    rw [Patch.seenBefore_add script view (Nat.le_of_lt hlt),
      Patch.seenBefore_add script view (Nat.le_of_lt hle)]
    omega
  simpa [hunkOf] using ⟨hgap Edit.before? fun _ => rfl, hgap Edit.after? fun _ => rfl⟩

/-- The diff of two versions is empty exactly when they are equal. Its hunks turn the old version
into the new one, and read backwards the new one into the old one. They are stretches of one script
that leads from the lines of the one to those of the other: the header of each agrees with its body
and with where its lines stand, each ends before the next begins, and every step that changes
something is in exactly one of them, with the steps up to three before and behind it and no others. -/
theorem unified_exact (path old new : Text) :
    (unified path old new = [] ↔ old = new) ∧
    patch path (unified path old new) old = some new ∧
    unpatch path (unified path old new) new = some old ∧
    (old ≠ new → ∃ (script : List (Edit Text)) (ranges : List (Nat × Nat)) (hunks : List Hunk),
      script.filterMap Edit.before? = Text.lines old ∧
      script.filterMap Edit.after? = Text.lines new ∧
      Patch.readHunks path (unified path old new) = some hunks ∧
      hunks.map Hunk.steps = ranges.map (fun r => stepsFrom script r.1 r.2) ∧
      (∀ h ∈ hunks, h.Describes (Text.lines old) (Text.lines new)) ∧
      hunks.Pairwise (fun h h' => h.old.before + h.old.count < h'.old.before ∧
        h.new.before + h.new.count < h'.new.before) ∧
      Framed script ranges ∧
      ∀ i, ChangedAt script i → ∃! r, r ∈ ranges ∧ r.1 ≤ i ∧ i < r.2) := by
  refine ⟨?_, patch_unified path old new, unpatch_unified path old new, fun h => ?_⟩
  · by_cases h : old = new <;> simp [unified, h]
  · have hold := Script.before_between (Text.lines old) (Text.lines new)
    have hnew := Script.after_between (Text.lines old) (Text.lines new)
    have hread := @Patch.readHunks_unified path old new h
    generalize Script.between (Text.lines old) (Text.lines new) = script at hold hnew hread
    have hframed := framed_hunks script
    refine ⟨script, _, _, hold, hnew, hread, ?_, fun h hh => ?_, hframed.apart_hunks, hframed,
      fun i hi => hframed.exists_unique hi⟩
    · rw [hunksOf, List.map_map]
      rfl
    · obtain ⟨r, hr, rfl⟩ := List.mem_map.mp hh
      rw [← hold, ← hnew]
      exact describes_hunkOf script (Nat.le_of_lt (hframed.within r hr).1)

end Crosslink.Diff
