import Crosslink.Proofs.Checked.Readers

/-!
# Edits that keep the layout, with every access checked

Items are taken out of a list by their index, deletions are spans made from two offsets that have to
be in order, and what stands between two splices is cut out of the source. Here each of these is
refused where an index is out of range, a span the wrong way round, or an offset no place between two
characters.

The items of a list that stand one after the other, constructs and declarations whose spans fit the
source, and splices whose spans are the right way round are never refused. The last holds for any
splices: those that reach past the source or clash are errors, not accesses out of range.

* §1 Items of a list.
* §2 Constructs and lines.
* §3 Splices.

## Main statements

* `Edit.Checked.dropItems_eq`, `Edit.Checked.takeOut_eq`, `Edit.Checked.addLine_eq`.
* `Splice.Checked.apply_eq`.
-/

namespace Crosslink

/-! ## 1. Items of a list -/

namespace Edit.Checked

/-- The index of the last of the first `n` items that is kept. -/
def lastKept (flags : List Bool) : Nat → Option (Option Nat)
  | 0 => some none
  | n + 1 => do
    let flag ← flags[n]?
    if flag then lastKept flags n else some (some n)

/-- The deletion of the item at an index up to the next, if it is flagged. -/
def dropItem (items : List Span) (flags : List Bool) (i : Nat) : Option (List Splice) := do
  let flag ← flags[i]?
  if flag then
    let item ← items[i]?
    let next ← items[i + 1]?
    let span ← Span.between? item.start next.start
    some [.delete span]
  else some []

/-- The deletion of the run of items after the one at `k`, which is kept. -/
def dropRun (items : List Span) (k : Nat) : Option (List Splice) :=
  if k + 1 < items.length then do
    let kept ← items[k]?
    let last ← items[items.length - 1]?
    let span ← Span.between? kept.stop last.stop
    some [.delete span]
  else some []

/-- The deletions that take the flagged items out of a list, given the spans of its items. -/
def dropItems (items : List Span) (flags : List Bool) : Option (List Splice) := do
  match ← lastKept flags items.length with
  | none => some []
  | some k =>
    let before ← gather (dropItem items flags) (List.range k)
    let run ← dropRun items k
    some (before ++ run)

/-- The items of a list stand in order: each begins and ends no later than those after it. -/
def InOrder (items : List Span) : Prop := items.Pairwise fun a b => a.start ≤ b.start ∧ a.stop ≤ b.stop

theorem inOrder_of_lt {items : List Span} (hlt : ∀ s ∈ items, s.start < s.stop)
    (horder : items.Pairwise fun a b => a.stop ≤ b.start) : InOrder items := by
  refine horder.imp_of_mem fun {a b} ha hb hab => ?_
  have := hlt a ha
  have := hlt b hb
  omega

variable {items : List Span} {flags : List Bool} {s : Span} {flag : Bool}

theorem gather_map {α β γ : Type} (f : β → Option (List γ)) (g : α → β) (xs : List α) :
    gather f (xs.map g) = gather (fun x => f (g x)) xs := by
  induction xs with
  | nil => rfl
  | cons x xs ih => rw [List.map_cons, gather, gather, ih]

/-- The last kept item of a list is found in what follows its first item, if any is kept there. -/
theorem lastKept_cons (n : Nat) : lastKept (flag :: flags) (n + 1) =
    (lastKept flags n).map fun k => match k with
      | some k => some (k + 1)
      | none => if flag then none else some 0 := by
  induction n with
  | zero => cases flag <;> rfl
  | succ n ih =>
    rw [lastKept, List.getElem?_cons_succ, ih]
    conv => rhs; rw [lastKept]
    cases flags[n]? with
    | none => rfl
    | some f => cases f <;> rfl

theorem exists_lastKept (flags : List Bool) :
    ∃ k, lastKept flags flags.length = some k ∧ k.isSome = flags.any (!·) := by
  induction flags with
  | nil => exact ⟨none, rfl, rfl⟩
  | cons flag flags ih =>
    obtain ⟨k, hk, hany⟩ := ih
    rw [List.length_cons, lastKept_cons, hk]
    refine ⟨_, rfl, ?_⟩
    rw [List.any_cons, ← hany]
    cases k <;> cases flag <;> rfl

theorem dropRun_cons (k : Nat) (hitems : items ≠ []) :
    dropRun (s :: items) (k + 1) = dropRun items k := by
  have hpos := List.length_pos_iff.mpr hitems
  have hlast : (s :: items)[items.length + 1 - 1]? = items[items.length - 1]? := by
    rw [Nat.add_sub_cancel, List.getElem?_cons, if_neg (Nat.ne_of_gt hpos)]
  simp only [dropRun, List.length_cons, hlast, List.getElem?_cons_succ, Nat.add_lt_add_iff_right]

/-- The run after a first item that alone is kept goes up to the end of the last item. -/
theorem dropRun_zero {next : Span} (horder : InOrder (s :: next :: items)) :
    ∃ last, (next :: items).getLast? = some last ∧
      dropRun (s :: next :: items) 0 = some [.delete ⟨s.stop, last.stop⟩] := by
  obtain ⟨last, hlast⟩ := Option.isSome_iff_exists.mp
    (List.getLast?_isSome.mpr (List.cons_ne_nil next items))
  have hle := ((List.pairwise_cons.mp horder).1 last (List.mem_of_getLast? hlast)).2
  have hget : (s :: next :: items)[(s :: next :: items).length - 1]? = some last := by
    rw [← hlast, List.getLast?_eq_getElem?]
    rfl
  refine ⟨last, hlast, ?_⟩
  simp only [dropRun, hget, Span.between?_of_le hle, List.getElem?_cons_zero, Option.bind_eq_bind,
    Option.bind_some]
  exact if_pos (by simp)

/-- Items that stand in order are taken out of their list with every access in range. -/
theorem dropItems_eq (hflags : flags.length = items.length) (horder : InOrder items) :
    dropItems items flags = some (Edit.dropItems items flags) := by
  induction items generalizing flags with
  | nil => rfl
  | cons s items ih =>
    obtain ⟨flag, flags, rfl⟩ := List.exists_cons_of_length_eq_add_one hflags
    replace hflags : flags.length = items.length := Nat.succ.inj hflags
    obtain ⟨hnext, hrest⟩ := List.pairwise_cons.mp horder
    replace ih := ih hflags hrest
    obtain ⟨k, hk, hany⟩ := exists_lastKept flags
    rw [hflags] at hk
    rw [dropItems, hk, Option.bind_eq_bind, Option.bind_some] at ih
    rw [dropItems, List.length_cons, lastKept_cons, hk, Option.map_some, Option.bind_eq_bind,
      Option.bind_some, Edit.dropItems, List.zip_cons_cons]
    cases items with
    | nil =>
      obtain rfl := List.length_eq_zero_iff.mp hflags
      obtain rfl := Option.some.inj hk
      cases flag <;> rfl
    | cons next items =>
      obtain ⟨flag', flags, rfl⟩ := List.exists_cons_of_length_eq_add_one hflags
      rw [List.zip_cons_cons, dropBeforeKept]
      have hkept : ((next, flag') :: items.zip flags).any (!·.2) = k.isSome := by
        rw [hany, ← List.zip_cons_cons]
        conv => rhs; rw [← List.map_snd_zip (Nat.le_of_eq hflags), List.any_map]
        rfl
      rw [hkept]
      cases k with
      | none =>
        cases flag with
        | true => rfl
        | false =>
          obtain ⟨last, hlast, hrun⟩ := dropRun_zero horder
          have hzip : (((next, flag') :: items.zip flags).getLast?.map Prod.fst) = some last := by
            rw [← List.getLast?_map, ← List.zip_cons_cons, List.map_fst_zip (Nat.le_of_eq hflags.symm),
              hlast]
          obtain ⟨x, hx, rfl⟩ := Option.map_eq_some_iff.mp hzip
          simp only [Bool.false_eq_true, if_false, Option.isSome_none, List.range_zero, gather, hrun,
            Option.bind_eq_bind, Option.bind_some, List.nil_append, hx]
      | some k =>
        obtain ⟨before, hbefore, ih⟩ := Option.bind_eq_some_iff.mp ih
        obtain ⟨run, hrun, ih⟩ := Option.bind_eq_some_iff.mp ih
        have hfirst : dropItem (s :: next :: items) (flag :: flag' :: flags) 0 =
            some (if flag then [.delete ⟨s.start, next.start⟩] else []) := by
          have hle := (hnext next (by simp)).1
          cases flag
          · rfl
          · simp [dropItem, Span.between?_of_le hle]
        have hlater : (fun i => dropItem (s :: next :: items) (flag :: flag' :: flags) (i + 1)) =
            dropItem (next :: items) (flag' :: flags) := rfl
        have hdrop : dropBeforeKept ((next, flag') :: items.zip flags) = before ++ run :=
          (Option.some.inj ih).symm
        simp only [List.range_succ_eq_map, gather, gather_map, Nat.succ_eq_add_one, hlater, hfirst,
          dropRun_cons k (List.cons_ne_nil next items), hbefore, hrun, hdrop, Option.bind_eq_bind,
          Option.bind_some, Option.isSome_some, if_true]
        cases flag <;> rfl

/-! ## 2. Constructs and lines -/

/-- The deletion of a whole construct. -/
def takeOut (source : Text) (span : Span) : Option Splice := do
  let blankBefore ← Line.Checked.blankBefore source span.start
  let blankAfter ← Line.Checked.blankAfter source span.stop
  if blankBefore && blankAfter then
    let start ← Line.Checked.start source span.start
    let stop ← Line.Checked.next source span.stop
    (Span.between? start stop).map .delete
  else
    let stop ← Line.Checked.skipBlanks source span.stop
    if span.stop < stop && !blankAfter then (Span.between? span.start stop).map .delete
    else
      let before ← Text.before? span.start source
      (Span.between? (Text.width (Text.trimEnd isIndent before)) span.stop).map .delete

/-- The insertion of a declaration. -/
def addLine (source : Text) (anchors : List Span) (start : Nat) (text : Text) : Option Splice := do
  let ending ← Line.Checked.ending source
  match anchors.getLast? with
  | some anchor =>
    let blank ← Line.Checked.blankAfter source anchor.stop
    if !blank then some (.insert anchor.stop (" " ++ text))
    else
      let indent ← Line.Checked.indentation source anchor.start
      let stop ← Line.Checked.stop source anchor.stop
      if stop = Text.width source then some (.insert anchor.stop (ending ++ indent ++ text))
      else
        let next ← Line.Checked.next source anchor.stop
        some (.insert next (indent ++ text ++ ending))
  | none =>
    let blank ← Line.Checked.blankBefore source start
    if blank then
      let indent ← Line.Checked.indentation source start
      let line ← Line.Checked.start source start
      some (.insert line (indent ++ text ++ ending))
    else some (.insert start (text ++ " "))

variable {source : Text}

theorem takeOut_eq (h : s.Fits source) : takeOut source s = some (Edit.takeOut source s) := by
  have hline : Line.start source s.start ≤ Line.next source s.stop :=
    Nat.le_trans (Line.start_le h.start).2 (Nat.le_trans h.le (Line.le_next h.stop).2)
  have hskip : s.start ≤ Line.skipBlanks source s.stop :=
    Nat.le_trans h.le (Line.le_skipBlanks h.stop).2
  have htrim : Text.width (Text.trimEnd isIndent (Text.before s.start source)) ≤ s.stop :=
    Nat.le_trans (Line.trimEnd_le h.start).2 h.le
  have hbefore : Text.before? s.start source = some (Text.before s.start source) := if_pos h.start
  unfold takeOut Edit.takeOut
  simp only [Line.Checked.blankBefore_eq h.start, Line.Checked.blankAfter_eq h.stop,
    Line.Checked.start_eq h.start, Line.Checked.next_eq h.stop, Line.Checked.skipBlanks_eq h.stop,
    hbefore, Span.between?_of_le hline, Span.between?_of_le hskip, Span.between?_of_le htrim,
    Option.bind_eq_bind, Option.bind_some, Option.map_some]
  split
  · rfl
  · split <;> rfl

theorem addLine_eq {anchors : List Span} {start : Nat} (hanchors : ∀ s ∈ anchors, s.Fits source)
    (hstart : Text.isBoundary start source = true) (text : Text) :
    addLine source anchors start text = some (Edit.addLine source anchors start text) := by
  unfold addLine Edit.addLine
  simp only [Line.Checked.ending_eq, Option.bind_eq_bind, Option.bind_some]
  cases hlast : anchors.getLast? with
  | some anchor =>
    have h := hanchors anchor (List.mem_of_getLast? hlast)
    simp only [Line.Checked.blankAfter_eq h.stop, Line.Checked.indentation_eq h.start,
      Line.Checked.stop_eq h.stop, Line.Checked.next_eq h.stop, Option.bind_some]
    split
    · rfl
    · split <;> rfl
  | none =>
    simp only [Line.Checked.blankBefore_eq hstart, Line.Checked.indentation_eq hstart,
      Line.Checked.start_eq hstart, Option.bind_some]
    split <;> rfl

end Edit.Checked

/-! ## 3. Splices -/

namespace Splice.Checked

/-- Carry out splices that stand in order on the bytes from `cursor` on. -/
def weave (source : Text) (cursor : Nat) : List Splice → Option Text
  | [] => Text.after? cursor source
  | s :: rest => do
    let kept ← Text.slice? cursor s.span.start source
    let later ← weave source s.span.stop rest
    some (kept ++ s.text ++ later)

/-- Carry out a set of splices. -/
def apply (source : Text) (splices : List Splice) : Option (Except SpliceError Text) :=
  match (ordered splices).find? (fun s => !fits source s) with
  | some s => some (.error (.outOfBounds s.span (Text.width source)))
  | none =>
    match firstClash (ordered splices) with
    | some (a, b) => some (.error (.overlap a b))
    | none => (weave source 0 (ordered splices)).map .ok

variable {source : Text} {splices : List Splice} {a b : Splice} {cursor : Nat}

/-- Neighbours in the order of places that do not clash stand one after the other. -/
theorem stop_le_of_not_clashes (hb : b.span.start ≤ b.span.stop) (hle : le a b = true)
    (h : clashes a.span b.span = false) : a.span.stop ≤ b.span.start := by
  simp only [le, Bool.or_eq_true, Bool.and_eq_true, decide_eq_true_eq] at hle
  simp only [clashes, Span.overlaps, Bool.or_eq_false_iff, Bool.and_eq_false_iff,
    decide_eq_false_iff_not] at h
  omega

theorem weave_eq (hfits : ∀ s ∈ splices, s.span.Fits source)
    (hsorted : splices.Pairwise fun a b => le a b = true) (hclash : firstClash splices = none)
    (hcursor : Text.isBoundary cursor source = true)
    (hfirst : ∀ s ∈ splices.head?, cursor ≤ s.span.start) :
    weave source cursor splices = some (Splice.weave source cursor splices) := by
  induction splices generalizing cursor with
  | nil => exact if_pos hcursor
  | cons a rest ih =>
    have ha := hfits a (by simp)
    have hkept : Text.slice? cursor a.span.start source =
        some (Text.slice cursor a.span.start source) := by
      simp only [Text.slice?, hfirst a rfl, hcursor, ha.start, decide_true, Bool.and_self, if_true]
    obtain ⟨hab, hsorted⟩ := List.pairwise_cons.mp hsorted
    have hrest : firstClash rest = none ∧ ∀ b ∈ rest.head?, a.span.stop ≤ b.span.start := by
      cases rest with
      | nil => exact ⟨rfl, by simp⟩
      | cons b rest =>
        rw [firstClash] at hclash
        split at hclash
        · cases hclash
        · rename_i hne
          refine ⟨hclash, fun c hc => ?_⟩
          obtain rfl := Option.some.inj hc
          exact stop_le_of_not_clashes (hfits b (by simp)).le (hab b (by simp)) (by simpa using hne)
    have hlater := ih (fun s hs => hfits s (by simp [hs])) hsorted hrest.1 ha.stop hrest.2
    rw [weave, hkept, hlater]
    rfl

/-- Splices whose spans are the right way round are carried out with every access in range. -/
theorem apply_eq (source : Text) (h : ∀ s ∈ splices, s.span.start ≤ s.span.stop) :
    apply source splices = some (Splice.apply source splices) := by
  unfold apply Splice.apply
  cases hfind : (ordered splices).find? (fun s => !fits source s) with
  | some s => rfl
  | none =>
    dsimp only
    cases hclash : firstClash (ordered splices) with
    | some c => rfl
    | none =>
      have hfits : ∀ s ∈ ordered splices, s.span.Fits source := by
        intro s hs
        have hfit : fits source s = true := by simpa using List.find?_eq_none.mp hfind s hs
        simp only [fits, Bool.and_eq_true] at hfit
        exact ⟨h s (mem_ordered.mp hs), hfit.1.2, hfit.2⟩
      have hstart : Text.isBoundary 0 source = true := by cases source <;> rfl
      have hweave := weave_eq hfits (ordered_sorted splices) hclash hstart fun s _ => Nat.zero_le _
      rw [hweave]
      rfl

end Splice.Checked

end Crosslink
