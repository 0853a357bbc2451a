import Crosslink.EditError
import Crosslink.Proofs.Slices

/-!
# Splices that leave each other alone

Splices are computed each from its own neighbourhood and in any order. When each lies between two
characters of the source, and of any two one ends before the other begins, they can be carried out
together, whatever the order they are given in. Splices that all take bytes out of the source can be
carried out in no other case.

## Main statements

* `Splice.Apart.apply_isOk`: splices that are apart can be carried out.
* `Splice.apply_isOk_iff`: if none of them is empty, no others can.
* `Splice.Rowed.apply_eq`: splices that stand in order are carried out as they stand.
* `applyEdit_inserts`: texts that are put in at one place stand there in order.
* `applyEdit_tiles`: texts that stand in a row are taken out together.
-/

namespace Crosslink

/-! ## §1 Spans between two characters -/

namespace Span

variable {source : Text} {a b : Span}

/-- The span stands in a text, and begins and ends between two of its characters. -/
structure Fits (source : Text) (s : Span) : Prop where
  le : s.start ≤ s.stop
  start : Text.isBoundary s.start source = true
  stop : Text.isBoundary s.stop source = true

theorem le_width_of_isBoundary {n : Nat} (h : Text.isBoundary n source = true) :
    n ≤ Text.width source := by
  obtain ⟨a, b, rfl, rfl⟩ := Text.isBoundary_iff.mp h
  rw [Text.width_append]
  omega

theorem Fits.point {n : Nat} (h : Text.isBoundary n source = true) : (Span.point n).Fits source :=
  ⟨Nat.le_refl _, h, h⟩

/-- A span that fits is the place of the middle one of three texts. -/
theorem Fits.exists_parts (h : a.Fits source) :
    ∃ x m y : Text, source = x ++ (m ++ y) ∧ a.start = Text.width x ∧
      a.stop = Text.width x + Text.width m := by
  obtain ⟨x, rest, rfl, hx⟩ := Text.isBoundary_iff.mp h.start
  obtain ⟨u, y, hu, hstop⟩ := Text.isBoundary_iff.mp h.stop
  have hle := h.le
  obtain ⟨m, rfl, -⟩ | ⟨m, rfl, rfl⟩ := List.append_eq_append_iff.mp hu
  · refine ⟨x, m, y, by simpa using hu, hx, by simpa using hstop⟩
  · refine ⟨u ++ m, [], rest, by simp, hx, ?_⟩
    rw [Text.width_append] at hx
    simp only [Text.width_append, Text.width_nil]
    omega

end Span

/-! ## §2 Splices that are apart -/

namespace Splice

variable {source : Text} {splices : List Splice} {a b : Splice}

/-- Of two splices one ends before the other begins. -/
def Clear (a b : Splice) : Prop := a.span.stop ≤ b.span.start ∨ b.span.stop ≤ a.span.start

theorem Clear.symm (h : Clear a b) : Clear b a := Or.symm h

/-- Each splice stands between two characters of the source, and any two are clear of each other. -/
structure Apart (source : Text) (splices : List Splice) : Prop where
  fits : ∀ s ∈ splices, s.span.Fits source
  clear : splices.Pairwise Clear

theorem fits_eq_true (h : a.span.Fits source) : a.fits source = true := by
  simp [fits, h.start, h.stop, Span.le_width_of_isBoundary h.stop]

theorem le_total (a b : Splice) : (le a b || le b a) = true := by
  simp only [le, Bool.or_eq_true, Bool.and_eq_true, decide_eq_true_eq]
  omega

theorem le_trans (a b c : Splice) : le a b = true → le b c = true → le a c = true := by
  simp only [le, Bool.or_eq_true, Bool.and_eq_true, decide_eq_true_eq]
  omega

/-- Splices that are clear of each other do not clash. -/
theorem clashes_eq_false (h : Clear a b) : clashes a.span b.span = false := by
  unfold Clear at h
  simp only [clashes, Span.overlaps, Span.isEmpty, Bool.or_eq_false_iff, Bool.and_eq_false_iff,
    decide_eq_false_iff_not]
  omega

/-- Neighbours in the order of places that do not clash stand one after the other, if the second
takes bytes out. -/
theorem stop_le_start (hb : b.span.start < b.span.stop) (hle : le a b = true)
    (h : clashes a.span b.span = false) : a.span.stop ≤ b.span.start := by
  simp only [le, Bool.or_eq_true, Bool.and_eq_true, decide_eq_true_eq] at hle
  simp only [clashes, Span.overlaps, Bool.or_eq_false_iff, Bool.and_eq_false_iff,
    decide_eq_false_iff_not] at h
  omega

theorem firstClash_eq_none_of_clear (h : splices.Pairwise Clear) : firstClash splices = none := by
  induction splices with
  | nil => rfl
  | cons a rest ih =>
    cases rest with
    | nil => rfl
    | cons b rest =>
      obtain ⟨hfirst, hrest⟩ := List.pairwise_cons.mp h
      rw [firstClash, clashes_eq_false (hfirst b (by simp))]
      exact ih hrest

theorem clear_of_firstClash (hlt : ∀ s ∈ splices, s.span.start < s.span.stop)
    (hsorted : splices.Pairwise fun a b => le a b = true) (h : firstClash splices = none) :
    splices.Pairwise fun a b => a.span.stop ≤ b.span.start := by
  induction splices with
  | nil => exact .nil
  | cons a rest ih =>
    obtain ⟨hab, hsorted⟩ := List.pairwise_cons.mp hsorted
    have hltrest : ∀ s ∈ rest, s.span.start < s.span.stop :=
      fun s hs => hlt s (List.mem_cons_of_mem _ hs)
    cases rest with
    | nil => exact List.pairwise_singleton _ _
    | cons b rest =>
      rw [firstClash] at h
      split at h
      · cases h
      · rename_i hclash
        have hnext := stop_le_start (hlt b (by simp)) (hab b (by simp)) (by simpa using hclash)
        have hrest := ih hltrest hsorted h
        refine List.pairwise_cons.mpr ⟨fun c hc => ?_, hrest⟩
        obtain rfl | hc := List.mem_cons.mp hc
        · exact hnext
        · have := (List.pairwise_cons.mp hrest).1 c hc
          have := hlt b (by simp)
          omega

theorem ordered_sorted (splices : List Splice) :
    (ordered splices).Pairwise fun a b => le a b = true :=
  List.pairwise_mergeSort le_trans le_total splices

theorem mem_ordered : a ∈ ordered splices ↔ a ∈ splices := List.mem_mergeSort

theorem clear_ordered : (ordered splices).Pairwise Clear ↔ splices.Pairwise Clear :=
  (List.mergeSort_perm splices le).pairwise_iff Clear.symm

theorem find?_fits (h : ∀ s ∈ splices, s.span.Fits source) :
    (ordered splices).find? (fun s => !fits source s) = none := by
  refine List.find?_eq_none.mpr fun s hs => ?_
  rw [fits_eq_true (h s (mem_ordered.mp hs))]
  exact Bool.false_ne_true

/-- Splices that are apart can be carried out, in whatever order they are given. -/
theorem Apart.apply_isOk (h : Apart source splices) : ∃ out, apply source splices = .ok out := by
  rw [apply, find?_fits h.fits, firstClash_eq_none_of_clear (clear_ordered.mpr h.clear)]
  exact ⟨_, rfl⟩

/-- Splices that take bytes out can be carried out together only if they are apart. -/
theorem apply_isOk_iff (hfits : ∀ s ∈ splices, s.span.Fits source)
    (hlt : ∀ s ∈ splices, s.span.start < s.span.stop) :
    (∃ out, apply source splices = .ok out) ↔ splices.Pairwise Clear := by
  refine ⟨fun ⟨out, hout⟩ => ?_, fun h => Apart.apply_isOk ⟨hfits, h⟩⟩
  rw [apply, find?_fits hfits] at hout
  cases hclash : firstClash (ordered splices) with
  | some c =>
    rw [hclash] at hout
    cases hout
  | none =>
    have hordered := clear_of_firstClash (fun s hs => hlt s (mem_ordered.mp hs))
      (ordered_sorted splices) hclash
    exact clear_ordered.mp (hordered.imp Or.inl)

/-! ## §3 Splices one after the other -/

/-- The splices stand in order from one byte offset to another, and each fits. -/
structure Rowed (source : Text) (start stop : Nat) (splices : List Splice) : Prop where
  fits : ∀ s ∈ splices, s.span.Fits source
  within : ∀ s ∈ splices, start ≤ s.span.start ∧ s.span.stop ≤ stop
  order : splices.Pairwise fun a b => a.span.stop ≤ b.span.start

variable {start stop start' stop' : Nat} {splices' : List Splice}

theorem Rowed.nil (source : Text) (start stop : Nat) : Rowed source start stop [] :=
  ⟨by simp, by simp, .nil⟩

theorem Rowed.single (hfits : a.span.Fits source) :
    Rowed source a.span.start a.span.stop [a] :=
  ⟨by simpa using hfits, by simp, List.pairwise_singleton _ _⟩

theorem Rowed.widen (h : Rowed source start stop splices) (hstart : start' ≤ start)
    (hstop : stop ≤ stop') : Rowed source start' stop' splices :=
  ⟨h.fits, fun s hs => by have := h.within s hs; omega, h.order⟩

theorem Rowed.apart (h : Rowed source start stop splices) : Apart source splices :=
  ⟨h.fits, h.order.imp Or.inl⟩

/-- Carry out splices as they stand, without sorting them. -/
def applyInOrder (source : Text) (splices : List Splice) : Except SpliceError Text :=
  match splices.find? (fun s => !fits source s) with
  | some s => .error (.outOfBounds s.span (Text.width source))
  | none =>
    match firstClash splices with
    | some (a, b) => .error (.overlap a b)
    | none => .ok (weave source 0 splices)

theorem apply_of_sorted (h : splices.Pairwise fun a b => le a b = true) :
    apply source splices = applyInOrder source splices := by
  have hordered : ordered splices = splices := List.mergeSort_of_pairwise h
  rw [apply, hordered]
  rfl

/-- Splices that stand in order are carried out as they stand. -/
theorem Rowed.apply_eq (h : Rowed source start stop splices) :
    apply source splices = .ok (weave source 0 splices) := by
  have hsorted : splices.Pairwise fun a b => le a b = true := by
    refine h.order.imp_of_mem fun {a b} ha hb hab => ?_
    have := (h.fits a ha).le
    have := (h.fits b hb).le
    simp only [le, Bool.or_eq_true, Bool.and_eq_true, decide_eq_true_eq]
    omega
  have hfits : splices.find? (fun s => !Splice.fits source s) = none :=
    List.find?_eq_none.mpr fun s hs => by simp [fits_eq_true (h.fits s hs)]
  rw [apply_of_sorted hsorted, applyInOrder, hfits, firstClash_eq_none_of_clear h.apart.clear]

theorem Rowed.append (h : Rowed source start stop splices) (h' : Rowed source start' stop' splices')
    (hstart : start ≤ start') (hmiddle : stop ≤ start') (hstop : stop ≤ stop') :
    Rowed source start stop' (splices ++ splices') := by
  refine ⟨fun s hs => ?_, fun s hs => ?_, List.pairwise_append.mpr ⟨h.order, h'.order, ?_⟩⟩
  · obtain hs | hs := List.mem_append.mp hs
    · exact h.fits s hs
    · exact h'.fits s hs
  · obtain hs | hs := List.mem_append.mp hs
    · have := h.within s hs
      omega
    · have := h'.within s hs
      omega
  · intro a ha b hb
    have := (h.within a ha).2
    have := (h'.within b hb).1
    omega

end Splice

/-! ## §4 Texts in a row -/

open Splice

theorem applyEdit_of_sorted {source : Text} {splices : List Splice}
    (h : splices.Pairwise fun a b => le a b = true) :
    applyEdit source splices = (applyInOrder source splices).mapError .conflict := by
  rw [applyEdit, apply_of_sorted h]

theorem applyEdit_nil (source : Text) : applyEdit source [] = .ok source := by
  rw [applyEdit, (Rowed.nil source 0 0).apply_eq]
  exact congrArg Except.ok (Text.after_zero source)

theorem apply_of_applyEdit {source out : Text} {splices : List Splice}
    (h : applyEdit source splices = .ok out) : apply source splices = .ok out := by
  rw [applyEdit] at h
  cases hout : apply source splices with
  | error e =>
    rw [hout] at h
    cases h
  | ok text =>
    rw [hout] at h
    exact congrArg Except.ok (Except.ok.inj h)

theorem slice_self (n : Nat) (source : Text) : Text.slice n n source = [] := by
  rw [Text.slice, Nat.sub_self, Text.before_zero]

theorem slice_zero_width (x y : Text) : Text.slice 0 (Text.width x) (x ++ y) = x := by
  simpa using Text.slice_middle [] x y

/-- Texts that are put in at one place stand there in order. -/
theorem applyEdit_inserts (x y : Text) (texts : List Text) :
    applyEdit (x ++ y) (texts.map (.insert (Text.width x))) = .ok (x ++ (texts.flatten ++ y)) := by
  have hrow : Rowed (x ++ y) (Text.width x) (Text.width x) (texts.map (.insert (Text.width x))) := by
    refine ⟨fun s hs => ?_, fun s hs => ?_, ?_⟩
    · obtain ⟨t, -, rfl⟩ := List.mem_map.mp hs
      exact Span.Fits.point (Text.isBoundary_width x y)
    · obtain ⟨t, -, rfl⟩ := List.mem_map.mp hs
      exact ⟨Nat.le_refl _, Nat.le_refl _⟩
    · exact List.pairwise_map.mpr (List.pairwise_of_forall fun t u => Nat.le_refl (Text.width x))
  have hrest : ∀ texts : List Text, weave (x ++ y) (Text.width x)
      (texts.map (.insert (Text.width x))) = texts.flatten ++ y := by
    intro texts
    induction texts with
    | nil => exact Text.after_width x y
    | cons t texts ih =>
      rw [List.map_cons, weave]
      show Text.slice (Text.width x) (Text.width x) _ ++ t ++ weave _ (Text.width x) _ = _
      rw [slice_self, ih, List.nil_append, List.flatten_cons, List.append_assoc]
  rw [applyEdit, hrow.apply_eq]
  refine congrArg Except.ok ?_
  cases texts with
  | nil => exact Text.after_zero _
  | cons t texts =>
    rw [List.map_cons, weave]
    show Text.slice 0 (Text.width x) _ ++ t ++ weave _ (Text.width x) _ = _
    rw [slice_zero_width, hrest, List.flatten_cons]
    simp

/-- The deletions of texts that stand in a row from an offset on. -/
def tiles (offset : Nat) : List Text → List Splice
  | [] => []
  | w :: ws => .delete ⟨offset, offset + Text.width w⟩ :: tiles (offset + Text.width w) ws

theorem rowed_tiles (x y : Text) (ws : List Text) :
    Rowed (x ++ (ws.flatten ++ y)) (Text.width x) (Text.width (x ++ ws.flatten))
      (tiles (Text.width x) ws) := by
  induction ws generalizing x with
  | nil => exact .nil _ _ _
  | cons w ws ih =>
    have hrest := ih (x ++ w)
    rw [Text.width_append x w] at hrest
    simp only [List.append_assoc] at hrest
    have hfits : (Splice.delete ⟨Text.width x, Text.width x + Text.width w⟩).span.Fits
        (x ++ (w ++ (ws.flatten ++ y))) := by
      refine ⟨Nat.le_add_right _ _, Text.isBoundary_width _ _, ?_⟩
      have hstop := Text.isBoundary_width (x ++ w) (ws.flatten ++ y)
      rwa [Text.width_append, List.append_assoc] at hstop
    rw [List.flatten_cons, List.append_assoc, tiles]
    refine (Rowed.single hfits).append hrest (Nat.le_add_right _ _) (Nat.le_refl _) ?_
    show Text.width x + Text.width w ≤ _
    simp only [Text.width_append]
    omega

theorem weave_tiles (source : Text) (offset : Nat) (ws : List Text) :
    weave source offset (tiles offset ws) = Text.after (offset + Text.width ws.flatten) source := by
  induction ws generalizing offset with
  | nil => rfl
  | cons w ws ih =>
    rw [tiles, weave]
    show Text.slice offset offset source ++ [] ++ weave source (offset + Text.width w) _ = _
    rw [slice_self, ih, List.flatten_cons, Text.width_append, Nat.add_assoc]
    rfl

/-- Texts that stand in a row are taken out together. -/
theorem applyEdit_tiles (x y : Text) (ws : List Text) :
    applyEdit (x ++ (ws.flatten ++ y)) (tiles (Text.width x) ws) = .ok (x ++ y) := by
  rw [applyEdit, (rowed_tiles x y ws).apply_eq]
  refine congrArg Except.ok ?_
  cases ws with
  | nil => exact Text.after_zero _
  | cons w ws =>
    have hafter := Text.after_width (x ++ (w :: ws).flatten) y
    rw [List.append_assoc] at hafter
    rw [tiles, weave]
    show Text.slice 0 (Text.width x) _ ++ [] ++ weave _ (Text.width x + Text.width w) _ = _
    rw [weave_tiles, slice_zero_width, List.append_nil, Nat.add_assoc, ← Text.width_append,
      ← List.flatten_cons, ← Text.width_append, hafter]

end Crosslink
