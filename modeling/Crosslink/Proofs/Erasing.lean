import Crosslink.Proofs.Inscribing

/-!
# Groups taken out where they were written

Groups that were written at one place stand in a row, and each takes along the blanks that were written
around it when it is taken out. So what is left is the source as it was before they were written. Only where
the line of the last anchor goes on, the last group takes the blanks along that stood after the anchor, and
the one that was written before the first group is left.

* §1 `Edit.respaced`, a source with one space after its last anchor.
* §2 `Edit.takeOut_line`, `Edit.takeOut_followed` and `Edit.takeOut_abutting`, what goes with one group.
* §3 `Layout.exists_tiles`, what goes with a row of groups.
-/

namespace Crosslink

open Text

variable {source x y z u gap note before after : Text} {c : Char} {spans : List Span} {s : Span}

namespace Edit

/-! ## §1 The blanks after the last anchor -/

/-- A source with one space for the blanks between the last of these spans and what follows it on its
line. -/
def respaced (source : Text) (spans : List Span) : Text :=
  match spans.getLast? with
  | some s =>
    if Line.blankAfter source s.stop || Line.skipBlanks source s.stop = s.stop then source
    else Text.before s.stop source ++ ' ' :: Text.after (Line.skipBlanks source s.stop) source
  | none => source

/-- Something follows the last of these spans on its line without a blank between them. -/
def Abuts (source : Text) (spans : List Span) : Prop :=
  ∃ s ∈ spans.getLast?, Line.blankAfter source s.stop = false ∧ Line.skipBlanks source s.stop = s.stop

instance : Decidable (Abuts source spans) := inferInstanceAs (Decidable (∃ s ∈ spans.getLast?, _))

/-- The blanks at the start of a text, and what comes after them. -/
theorem exists_gap_head (y : Text) : ∃ gap z, y = gap ++ z ∧ (∀ c ∈ gap, isIndent c = true) ∧
    ∀ c ∈ z.head?, isIndent c = false := by
  refine ⟨_, _, (List.takeWhile_append_dropWhile (p := isIndent)).symm,
    fun c hc => List.all_eq_true.mp List.all_takeWhile c hc, fun c hc => ?_⟩
  have hhead := List.head?_dropWhile_not isIndent y
  rw [Option.mem_def.mp hc] at hhead
  simpa using hhead

theorem skipBlanks_gap (hgap : ∀ c ∈ gap, isIndent c = true) (hz : ∀ c ∈ z.head?, isIndent c = false)
    (x : Text) : Line.skipBlanks (x ++ (gap ++ z)) (width x) = width x + width gap := by
  have hnone : z.takeWhile isIndent = [] := by
    cases z with
    | nil => rfl
    | cons c z => exact List.takeWhile_cons_of_neg (by simp [hz c rfl])
  rw [Line.skipBlanks_eq, List.takeWhile_append_of_pos hgap, hnone, List.append_nil]

theorem respaced_of_gap (hs : spans.getLast? = some s) (hstop : s.stop = width x)
    (hgap : ∀ c ∈ gap, isIndent c = true) (hne : gap ≠ []) (hz : ∀ c ∈ z.head?, isIndent c = false)
    (hgoes : Line.blankAfter (x ++ (gap ++ z)) (width x) = false) :
    respaced (x ++ (gap ++ z)) spans = x ++ ' ' :: z := by
  have hskip := skipBlanks_gap hgap hz x
  have hwidth : ¬ width x + width gap = width x := fun h => hne (width_eq_zero.mp (by omega))
  have hafter := Text.after_width (x ++ gap) z
  rw [width_append, List.append_assoc] at hafter
  rw [respaced, hs]
  simp only [hstop, hskip, hgoes, hwidth, hafter, before_width, decide_false, Bool.or_false,
    Bool.false_eq_true, if_false]

/-- A source keeps its text if there is one space already, or none. -/
theorem respaced_eq_self_iff (hs : spans.getLast? = some s)
    (hplace : Text.isBoundary s.stop source = true) : respaced source spans = source ↔
      Line.blankAfter source s.stop = true ∨
        Text.slice s.stop (Line.skipBlanks source s.stop) source ∈ [[], [' ']] := by
  obtain ⟨x, y, rfl, hstop⟩ := Text.isBoundary_iff.mp hplace
  obtain ⟨gap, z, rfl, hgap, hz⟩ := exists_gap_head y
  have hskip := skipBlanks_gap hgap hz x
  rw [hstop, hskip, Text.slice_middle]
  cases hblank : Line.blankAfter (x ++ (gap ++ z)) (width x) with
  | true => simp [respaced, hs, hstop, hblank]
  | false =>
    by_cases hne : gap = []
    · subst hne
      rw [width_nil, Nat.add_zero, List.nil_append] at hskip
      simp [respaced, hs, hstop, hskip]
    · rw [respaced_of_gap hs hstop hgap hne hz hblank, List.append_cancel_left_eq]
      simp only [Bool.false_eq_true, false_or, List.mem_cons, hne, List.not_mem_nil, or_false]
      exact ⟨fun h => (List.append_cancel_right (show [' '] ++ z = gap ++ z from h)).symm, fun h => by rw [h]; rfl⟩

/-! ## §2 One group -/

/-- What stands on a line of its own goes with the line. -/
theorem takeOut_line (hx : x.getLast? = some '\n') (hbefore : ∀ c ∈ before, isIndent c = true)
    (hafter : after = ['\n'] ∨ after = ['\r', '\n']) (note z : Text) :
    takeOut (x ++ (before ++ note ++ after ++ z))
        ⟨width x + width before, width x + width before + width note⟩ =
      .delete ⟨width x, width x + width (before ++ note ++ after)⟩ := by
  -- the line up to the group
  obtain ⟨v, rfl⟩ : ∃ v, x = v ++ ['\n'] := ⟨_, (List.dropLast_append_getLast? _ hx).symm⟩
  have hline : ∀ c ∈ before.reverse, decide (c ≠ '\n') = true := fun c hc => by
    refine decide_eq_true fun h => ?_
    have := hbefore c (List.mem_reverse.mp hc)
    rw [h] at this
    revert this
    decide
  have hhead : Line.head ((v ++ ['\n'] ++ before) ++ (note ++ after ++ z)) (width (v ++ ['\n'] ++ before)) =
      before := by
    rw [Line.head_eq, List.reverse_append, List.takeWhile_append_of_pos hline]
    simp
  -- the line from the group on
  obtain ⟨w, rfl, hw⟩ : ∃ w, after = w ++ ['\n'] ∧ (w = [] ∨ w = ['\r']) := by
    obtain rfl | rfl := hafter
    · exact ⟨[], rfl, .inl rfl⟩
    · exact ⟨['\r'], rfl, .inr rfl⟩
  have hnext := Line.next_eq_of_newline (x := v ++ ['\n'] ++ before ++ note) (z := w) (y := z)
    (by obtain rfl | rfl := hw <;> decide)
  have hblank : Line.blankAfter ((v ++ ['\n'] ++ before ++ note) ++ (w ++ '\n' :: z))
      (width (v ++ ['\n'] ++ before ++ note)) = true := by
    rw [Line.blankAfter_eq]
    obtain rfl | rfl := hw <;> simp
  have hone : ('\n' : Char).utf8Size = 1 := rfl
  simp only [List.append_assoc, List.cons_append, List.nil_append, width_append, width_cons, width_nil, hone,
    Nat.add_zero, Nat.add_assoc] at hhead hnext hblank ⊢
  have hstart : Line.start (v ++ '\n' :: (before ++ (note ++ (w ++ '\n' :: z))))
      (width v + (1 + width before)) = width v + 1 := by
    have hwidth := before_width (v ++ '\n' :: before) (note ++ (w ++ '\n' :: z))
    simp only [List.append_assoc, List.cons_append, width_append, width_cons, hone] at hwidth
    rw [Line.start, hhead, hwidth]
    simp only [width_append, width_cons, hone]
    omega
  rw [takeOut]
  simp only [Line.blankBefore, hhead, hblank, hstart, hnext, List.all_eq_true.mpr hbefore, Bool.and_true,
    if_true]

/-- What blanks follow before its line goes on goes with these blanks. -/
theorem takeOut_followed (x note : Text) (hgap : ∀ c ∈ gap, isIndent c = true) (hne : gap ≠ [])
    (hz : ∀ c ∈ z.head?, isIndent c = false)
    (hgoes : Line.blankAfter ((x ++ note) ++ (gap ++ z)) (width (x ++ note)) = false) :
    takeOut (x ++ (note ++ gap ++ z)) ⟨width x, width x + width note⟩ =
      .delete ⟨width x, width x + width (note ++ gap)⟩ := by
  have hskip := skipBlanks_gap hgap hz (x ++ note)
  have hlt : width x + width note < width x + (width note + width gap) := by
    have := mt width_eq_zero.mp hne
    omega
  simp only [List.append_assoc, width_append, Nat.add_assoc] at hgoes hskip ⊢
  rw [takeOut]
  simp only [hgoes, hskip, hlt, Bool.and_false, Bool.false_eq_true, if_false, decide_true, Bool.not_false,
    Bool.and_self, if_true]

/-- What no blanks follow before its line goes on goes with those before it. -/
theorem takeOut_abutting (u note : Text) (hc : isAsciiBlank c = false) (hgap : ∀ c ∈ gap, isIndent c = true)
    (hz : ∀ c ∈ z.head?, isIndent c = false)
    (hgoes : Line.blankAfter ((u ++ [c] ++ gap ++ note) ++ z) (width (u ++ [c] ++ gap ++ note)) = false) :
    takeOut (u ++ [c] ++ (gap ++ note ++ z))
        ⟨width (u ++ [c]) + width gap, width (u ++ [c]) + width gap + width note⟩ =
      .delete ⟨width (u ++ [c]), width (u ++ [c]) + width (gap ++ note)⟩ := by
  have hskip := @skipBlanks_gap z [] (by simp) hz (u ++ [c] ++ gap ++ note)
  have htrim := trimEnd_append_of_all (u := u) (p := isIndent) (Line.of_not_blank hc).1
    (List.all_eq_true.mpr hgap)
  have hbefore := before_width (u ++ [c] ++ gap) (note ++ z)
  simp only [List.append_assoc, List.cons_append, List.nil_append, width_append, width_cons, width_nil,
    Nat.add_zero, Nat.add_assoc] at hgoes hskip hbefore htrim ⊢
  rw [takeOut]
  simp only [hgoes, hskip, hbefore, htrim, Bool.and_false, Bool.false_eq_true, if_false, Nat.lt_irrefl,
    decide_false, Bool.false_and, width_append, width_cons, width_nil, Nat.add_zero]

end Edit

/-! ## §3 A row of groups -/

namespace Source

open Inscription Edit

variable {anchors : List AttributeGroup} {I : Inscription} {is : List Inscription}

/-- Groups that stand on lines of their own go with their lines. -/
theorem takeOut_lines (hbefore : ∀ c ∈ before, isIndent c = true)
    (hafter : after = ['\n'] ∨ after = ['\r', '\n']) (y : Text) (is : List Inscription)
    (hx : x.getLast? = some '\n') :
    (spansAt before after (width x) is).map (takeOut (x ++ (is.flatMap (laid before after) ++ y))) =
      tiles (width x) (is.map (laid before after)) := by
  induction is generalizing x with
  | nil => rfl
  | cons I is ih =>
    have hrest := ih (x := x ++ I.laid before after) (by obtain rfl | rfl := hafter <;> simp [laid])
    have hfirst := takeOut_line hx hbefore hafter I.text (is.flatMap (laid before after) ++ y)
    rw [List.append_assoc, width_append] at hrest
    rw [List.flatMap_cons, List.append_assoc, spansAt, List.map_cons, List.map_cons, tiles, hrest, laid, hfirst]

theorem isIndent_space : ∀ c ∈ [' '], isIndent c = true := by simp [isIndent]

/-- Before a group the line goes on. -/
theorem goes_on_of_gap (hgap : ∀ c ∈ gap, isIndent c = true) (hc : isAsciiBlank c = false) (x z : Text) :
    Line.blankAfter (x ++ (gap ++ c :: z)) (width x) = false := by
  obtain ⟨-, hline, hblank⟩ := Line.of_not_blank hc
  have hgap' : '\n' ∉ gap := fun h => absurd (hgap _ h) (by decide)
  rw [Line.blankAfter_eq, Line.takeWhile_append_of_line hgap', List.takeWhile_cons_of_pos (by simpa using hline),
    List.all_append, List.all_cons, hblank, Bool.false_and, Bool.and_false]

theorem head_row (is : List Inscription) (hy : ∃ c cs, y = c :: cs ∧ isAsciiBlank c = false)
    (after : Text) :
    ∃ c cs, is.flatMap (laid [] after) ++ y = c :: cs ∧ isAsciiBlank c = false := by
  cases is with
  | nil => exact hy
  | cons I is =>
    obtain ⟨w, hw⟩ := I.head
    exact ⟨'#', _, by rw [List.flatMap_cons, laid, hw]; rfl, by decide⟩

/-- Groups that stand before a word on its line go with the spaces after them. -/
theorem takeOut_front (hy : ∃ c cs, y = c :: cs ∧ isAsciiBlank c = false) (x : Text)
    (is : List Inscription) :
    (spansAt [] [' '] (width x) is).map (takeOut (x ++ (is.flatMap (laid [] [' ']) ++ y))) =
      tiles (width x) (is.map (laid [] [' '])) := by
  induction is generalizing x with
  | nil => rfl
  | cons I is ih =>
    have hrest := ih (x ++ I.laid [] [' '])
    obtain ⟨c, cs, hz, hc⟩ := head_row is hy [' ']
    have hfirst := takeOut_followed x I.text isIndent_space (by simp) (z := c :: cs)
      (by simpa using (Line.of_not_blank hc).1) (goes_on_of_gap isIndent_space hc _ _)
    rw [List.append_assoc, width_append] at hrest
    rw [List.flatMap_cons, List.append_assoc, spansAt, List.map_cons, List.map_cons, tiles, hrest, laid, hz]
    exact congrArg (· :: _) hfirst

/-- Groups that stand after an anchor on its line go with the spaces after them, and the last with the
blanks that stood after the anchor. -/
theorem exists_tiles_beside (hgap : ∀ c ∈ gap, isIndent c = true) (hne : gap ≠ [])
    (hz : ∀ c ∈ z.head?, isIndent c = false)
    (hgoes : ∀ x : Text, Line.blankAfter (x ++ (gap ++ z)) (width x) = false) (his : is ≠ []) (x : Text) :
    ∃ ws : List Text,
      x ++ (is.flatMap (laid [' '] []) ++ (gap ++ z)) = x ++ [' '] ++ (ws.flatten ++ z) ∧
      (spansAt [' '] [] (width x) is).map (takeOut (x ++ (is.flatMap (laid [' '] []) ++ (gap ++ z)))) =
        tiles (width (x ++ [' '])) ws := by
  induction is generalizing x with
  | nil => exact absurd rfl his
  | cons I is ih =>
    cases is with
    | nil =>
      refine ⟨[I.text ++ gap], by simp [laid], ?_⟩
      have hfirst := takeOut_followed (x ++ [' ']) I.text hgap hne hz (hgoes _)
      rw [tiles, tiles, ← hfirst, width_append]
      simp [spansAt, laid]
    | cons J is =>
      obtain ⟨ws, htext, htiles⟩ := ih (by simp) (x ++ I.laid [' '] [])
      obtain ⟨w, hw⟩ := J.head
      have hfirst := takeOut_followed (x ++ [' ']) I.text isIndent_space (by simp)
        (z := J.text ++ (is.flatMap (laid [' '] []) ++ (gap ++ z))) (by simp [hw, isIndent])
        (by rw [hw]; exact goes_on_of_gap isIndent_space (by decide) _ _)
      refine ⟨(I.text ++ [' ']) :: ws, ?_, ?_⟩
      · rw [List.flatMap_cons, List.append_assoc, ← List.append_assoc x, htext]
        simp [laid]
      · rw [List.append_assoc, width_append x (I.laid _ _)] at htiles
        rw [List.flatMap_cons, List.append_assoc, spansAt, List.map_cons, htiles, tiles, ← hfirst, width_append]
        simp [laid, Nat.add_assoc]

/-- One group that stands between an anchor and what follows it goes with the space before it. -/
theorem takeOut_between (hc : isAsciiBlank c = false) (hz : ∀ c ∈ z.head?, isIndent c = false)
    (hgoes : ∀ x : Text, Line.blankAfter (x ++ z) (width x) = false) (u : Text) (I : Inscription) :
    (spansAt [' '] [] (width (u ++ [c])) [I]).map
        (takeOut (u ++ [c] ++ ([I].flatMap (laid [' '] []) ++ z))) =
      tiles (width (u ++ [c])) ([I].map (laid [' '] [])) := by
  have hfirst := takeOut_abutting u I.text hc isIndent_space hz (hgoes _)
  simp only [List.flatMap_singleton, List.map_cons, List.map_nil, spansAt, tiles, laid, List.append_nil]
  rw [hfirst]

/-- What goes with groups that were written at one place stands in a row, and nothing but the blanks that
code follows after the last anchor is left otherwise than it was. -/
theorem Layout.exists_tiles (h : Layout source anchors x y before after) (hsource : source = x ++ y)
    (hne : is ≠ []) (hone : Abuts source (anchors.map AttributeGroup.span) → is.length ≤ 1) :
    ∃ (u v : Text) (ws : List Text),
      x ++ (is.flatMap (laid before after) ++ y) = u ++ (ws.flatten ++ v) ∧
      (spansAt before after (width x) is).map (takeOut (x ++ (is.flatMap (laid before after) ++ y))) =
        tiles (width u) ws ∧
      u ++ v = respaced source (anchors.map AttributeGroup.span) := by
  cases h with
  | lines starts indent ending last =>
    refine ⟨x, y, _, by rw [List.flatMap_def], takeOut_lines indent ending y is starts, ?_⟩
    rw [respaced, List.getLast?_map]
    cases hlast : anchors.getLast? with
    | none => exact hsource.symm
    | some g => simpa [last g hlast] using hsource.symm
  | front none word =>
    exact ⟨x, y, _, by rw [List.flatMap_def], takeOut_front word x is, by rw [none]; exact hsource.symm⟩
  | @beside g anchor goes_on stop last =>
    obtain ⟨gap, z, rfl, hgap, hz⟩ := exists_gap_head y
    have hspan : (anchors.map AttributeGroup.span).getLast? = some g.span := by
      rw [List.getLast?_map, anchor]
      rfl
    rw [hsource, stop] at goes_on
    have hgoes : ∀ x : Text, Line.blankAfter (x ++ (gap ++ z)) (width x) = false := fun _ => by
      rwa [Line.blankAfter_eq] at goes_on ⊢
    by_cases hnil : gap = []
    · subst hnil
      have hskip : Line.skipBlanks source g.span.stop = g.span.stop := by
        rw [hsource, stop, skipBlanks_gap hgap hz, width_nil, Nat.add_zero]
      have habuts : Abuts source (anchors.map AttributeGroup.span) :=
        ⟨g.span, hspan, by rw [hsource, stop]; exact goes_on, hskip⟩
      obtain ⟨I, rfl⟩ : ∃ I, is = [I] := by
        rw [← List.length_eq_one_iff]
        have := List.length_pos_iff.mpr hne
        have := hone habuts
        omega
      obtain ⟨u, c, rfl, hc⟩ := last
      refine ⟨u ++ [c], z, _, by simp, takeOut_between hc hz hgoes u I, ?_⟩
      simpa [respaced, hspan, hskip] using hsource.symm
    · obtain ⟨ws, htext, htiles⟩ := exists_tiles_beside hgap hnil hz hgoes hne x
      refine ⟨x ++ [' '], z, ws, htext, htiles, ?_⟩
      rw [hsource, respaced_of_gap hspan stop hgap hnil hz (hgoes x)]
      simp

/-- The groups that were written at one place can be taken out together. -/
theorem Layout.apply_takeOut (h : Layout source anchors x y before after) (hsource : source = x ++ y)
    (hne : is ≠ []) (hone : Abuts source (anchors.map AttributeGroup.span) → is.length ≤ 1) :
    applyEdit (x ++ (is.flatMap (laid before after) ++ y))
        ((spansAt before after (width x) is).map (takeOut (x ++ (is.flatMap (laid before after) ++ y)))) =
      .ok (respaced source (anchors.map AttributeGroup.span)) := by
  obtain ⟨u, v, ws, htext, htiles, hleft⟩ := h.exists_tiles hsource hne hone
  rw [htiles, htext, applyEdit_tiles, hleft]

end Source

end Crosslink
