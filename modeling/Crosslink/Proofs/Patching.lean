import Crosslink.Diff.Patch
import Crosslink.Proofs.Scripts

/-!
# A unified diff can be carried out

The diff of two versions of a file is read line by line: what is read are the hunks of the script
between the versions, and carrying them out on the old version gives the new one.

## Main statements

* `readHunks_unified`: the diff of two versions is read as the hunks of the script between them.
* `applyHunks_hunks`: the hunks of a script make what it leads to out of what it leads from.
* `patch_unified`: the diff of two versions turns the first into the second.
-/

namespace Crosslink

/-! ## 1. Lines -/

namespace Text

/-- A line: a text that holds no line feed but perhaps one at its end, and is not empty. -/
def IsLine (l : Text) : Prop :=
  (∃ body, '\n' ∉ body ∧ l = body ++ ['\n']) ∨ ('\n' ∉ l ∧ l ≠ [])

theorem lines_append_cons {body : Text} (h : '\n' ∉ body) (rest : Text) :
    lines (body ++ '\n' :: rest) = (body ++ ['\n']) :: lines rest := by
  induction body with
  | nil => simp [lines]
  | cons c cs ih =>
    obtain ⟨hc, hcs⟩ := not_or.mp (mt List.mem_cons.mpr h)
    rw [List.cons_append, lines, if_neg (Ne.symm hc), ih hcs]
    rfl

theorem flatten_lines (text : Text) : (lines text).flatten = text := by
  induction text with
  | nil => rfl
  | cons c cs ih =>
    rw [lines]
    split
    · simp [ih]
    · cases hl : lines cs with
      | nil =>
        rw [hl] at ih
        simp [← ih]
      | cons l rest =>
        rw [hl] at ih
        simp [← ih]

theorem isLine_of_mem_lines {text l : Text} (h : l ∈ lines text) : IsLine l := by
  induction text generalizing l with
  | nil => simp [lines] at h
  | cons c cs ih =>
    rw [lines] at h
    split at h
    · rename_i hc
      rcases List.mem_cons.mp h with rfl | h
      · exact .inl ⟨[], by simp, by simp [hc]⟩
      · exact ih h
    · rename_i hc
      cases hl : lines cs with
      | nil =>
        simp only [hl, List.mem_singleton] at h
        subst h
        exact .inr ⟨by simp [Ne.symm hc], by simp⟩
      | cons first rest =>
        simp only [hl, List.mem_cons] at h
        rcases h with rfl | h
        · rcases ih (l := first) (by simp [hl]) with ⟨body, hbody, rfl⟩ | ⟨hno, -⟩
          · exact .inl ⟨c :: body, by simp [Ne.symm hc, hbody], by simp⟩
          · exact .inr ⟨by simp [Ne.symm hc, hno], by simp⟩
        · exact ih (by simp [hl, h])

theorem trimEnd_of_not_mem {body : Text} (h : '\n' ∉ body) :
    trimEnd (· = '\n') body = body := by
  have hdrop : body.reverse.dropWhile (fun c => decide (c = '\n')) = body.reverse := by
    cases hb : body.reverse with
    | nil => rfl
    | cons c cs =>
      have hc : c ≠ '\n' := fun hc => h (by rw [← List.mem_reverse, hb, hc]; simp)
      simp [hc]
  rw [trimEnd, hdrop, List.reverse_reverse]

theorem trimEnd_append_newline {body : Text} (h : '\n' ∉ body) :
    trimEnd (· = '\n') (body ++ ['\n']) = body := by
  have := trimEnd_of_not_mem h
  simpa [trimEnd] using this

theorem isDigit_of_mem_ofNat {n : Nat} {c : Char} (h : c ∈ ofNat n) : c.isDigit = true :=
  Nat.isDigit_of_mem_toDigits (by omega) (by omega) h

theorem newline_not_mem_ofNat (n : Nat) : '\n' ∉ ofNat n :=
  fun h => absurd (isDigit_of_mem_ofNat h) (by decide)

end Text

namespace Diff

/-! ## 2. Reading headers -/

/-- The part of `count` lines that stands behind `linesBefore` others. -/
def Part.behind (linesBefore count : Nat) : Part :=
  ⟨if count = 0 then linesBefore else linesBefore + 1, count⟩

@[simp] theorem Part.behind_count (linesBefore count : Nat) :
    (Part.behind linesBefore count).count = count := rfl

@[simp] theorem Part.behind_before (linesBefore count : Nat) :
    (Part.behind linesBefore count).before = linesBefore := by
  unfold Part.behind Part.before
  by_cases h : count = 0 <;> simp [h]

namespace Patch

theorem expect_append (part rest : Text) : expect part (part ++ rest) = some rest := by
  rw [expect, if_pos (List.prefix_append part rest), List.drop_left]

theorem readNumber_ofNat (n : Nat) {rest : Text} (h : rest.head?.any Char.isDigit = false) :
    readNumber (Text.ofNat n ++ rest) = some (n, rest) := by
  have hdigits : ∀ c ∈ Text.ofNat n, c.isDigit = true := fun c hc => Text.isDigit_of_mem_ofNat hc
  have htake : rest.takeWhile Char.isDigit = [] ∧ rest.dropWhile Char.isDigit = rest := by
    cases rest with
    | nil => exact ⟨rfl, rfl⟩
    | cons c cs =>
      have hc : c.isDigit = false := h
      simp [hc]
  rw [readNumber, List.takeWhile_append_of_pos hdigits, List.dropWhile_append_of_pos hdigits,
    htake.1, htake.2, List.append_nil, if_neg (show Text.ofNat n ≠ [] from Nat.toDigits_ne_nil)]
  rw [Text.ofNat, Nat.ofDigitChars_toDigits (by omega) (by omega)]

theorem readPart_placement (linesBefore count : Nat) {rest : Text}
    (h : rest.head?.any Char.isDigit = false) :
    readPart (placement linesBefore count ++ rest) = some (.behind linesBefore count, rest) := by
  have hsplit : placement linesBefore count ++ rest =
      Text.ofNat (if count = 0 then linesBefore else linesBefore + 1) ++
        (",".toList ++ (Text.ofNat count ++ rest)) := by
    simp [placement]
  rw [hsplit, readPart, readNumber_ofNat _ (by rfl)]
  simp only [Option.bind_eq_bind, Option.bind_some]
  rw [expect_append]
  simp only [Option.bind_some]
  rw [readNumber_ofNat _ h]
  rfl

/-- The header of a hunk, given the lines before it and in it for either version. -/
def header (oldBefore oldCount newBefore newCount : Nat) : Text :=
  "@@ -" ++ placement oldBefore oldCount ++ " +" ++ placement newBefore newCount ++ " @@"

theorem newline_not_mem_placement (linesBefore count : Nat) :
    '\n' ∉ placement linesBefore count := by
  simp only [placement, List.mem_append, not_or]
  exact ⟨⟨Text.newline_not_mem_ofNat _, by decide⟩, Text.newline_not_mem_ofNat _⟩

theorem newline_not_mem_header (oldBefore oldCount newBefore newCount : Nat) :
    '\n' ∉ header oldBefore oldCount newBefore newCount := by
  simp only [header, List.mem_append, not_or]
  exact ⟨⟨⟨⟨by decide, newline_not_mem_placement _ _⟩, by decide⟩, newline_not_mem_placement _ _⟩,
    by decide⟩

theorem readHeader_header (oldBefore oldCount newBefore newCount : Nat) :
    readHeader (header oldBefore oldCount newBefore newCount ++ ['\n']) =
      some (.behind oldBefore oldCount, .behind newBefore newCount) := by
  have hsplit : header oldBefore oldCount newBefore newCount ++ ['\n'] =
      "@@ -".toList ++ (placement oldBefore oldCount ++
        (" +".toList ++ (placement newBefore newCount ++ " @@\n".toList))) := by
    simp [header]
  rw [hsplit, readHeader, expect_append]
  simp only [Option.bind_eq_bind, Option.bind_some]
  rw [readPart_placement _ _ (by rfl)]
  simp only [Option.bind_some]
  rw [expect_append]
  simp only [Option.bind_some]
  rw [readPart_placement _ _ (by decide)]
  simp

/-- A line that begins with another character is no header. -/
theorem readHeader_cons {c : Char} (h : c ≠ '@') (rest : Text) : readHeader (c :: rest) = none := by
  have hno : ¬ "@@ -".toList <+: c :: rest := fun hp => h (List.cons_prefix_cons.mp hp).1.symm
  rw [readHeader, expect, if_neg hno]
  rfl

/-! ## 3. Reading hunks -/

theorem mark_ne (e : Edit Text) : mark e ≠ '@' ∧ mark e ≠ '\\' := by
  cases e <;> simp [mark]

theorem readStep_mark (e : Edit Text) (bare : Bool) (shown : Text)
    (h : (if bare then shown.dropLast else shown) = line e) :
    readStep bare (mark e :: shown) = some e := by
  cases e <;> simp [readStep, mark, h, line]

theorem push_step (e : Edit Text) {b : Body} {shown : Text}
    (h : (if b.bare then shown.dropLast else shown) = line e) :
    b.push (mark e :: shown) = some ⟨false, e :: b.steps, b.hunks⟩ := by
  obtain ⟨hheader, hbare⟩ := mark_ne e
  have hne : mark e :: shown ≠ bareMark := fun h => hbare (List.cons.inj h).1
  rw [Body.push, if_neg hne, readHeader_cons hheader, readStep_mark e _ _ h]
  rfl

/-- A step is read from the lines that show it. -/
theorem readBody_renderEdit {e : Edit Text} (he : Text.IsLine (line e)) {text : Text} {b : Body}
    (hb : readBody (Text.lines text) = some b) (hbare : b.bare = false) :
    readBody (Text.lines (renderEdit e ++ text)) = some { b with steps := e :: b.steps } := by
  have hmark : '\n' ≠ mark e := by cases e <;> simp [mark]
  rcases he with ⟨body, hbody, hline⟩ | ⟨hno, hne⟩
  · have hlines : Text.lines (renderEdit e ++ text) =
        (mark e :: body ++ ['\n']) :: Text.lines text := by
      have hshown : renderEdit e ++ text = (mark e :: body) ++ '\n' :: text := by
        simp [renderEdit, hline, Text.trimEnd_append_newline hbody]
      rw [hshown, Text.lines_append_cons (by simp [hmark, hbody])]
    rw [hlines, readBody, hb, Option.bind_some, List.cons_append,
      push_step e (by simp [hbare, hline]), hbare]
  · have hlines : Text.lines (renderEdit e ++ text) =
        (mark e :: line e ++ ['\n']) :: bareMark :: Text.lines text := by
      have hlast : (line e).getLast? ≠ some '\n' := fun h => hno (List.mem_of_getLast? h)
      have hshown : renderEdit e ++ text =
          (mark e :: line e) ++ '\n' :: ("\\ No newline at end of file".toList ++ '\n' :: text) := by
        simp [renderEdit, hlast, Text.trimEnd_of_not_mem hno]
      rw [hshown, Text.lines_append_cons (by simp [hmark, hno]),
        Text.lines_append_cons (by decide)]
      rfl
    have hpush : b.push bareMark = some { b with bare := true } := by
      simp [Body.push, hbare]
    rw [hlines, readBody, readBody, hb, Option.bind_some, hpush, Option.bind_some,
      List.cons_append, push_step e (by simp), ← hbare]

theorem readBody_steps {steps : List (Edit Text)} (hsteps : ∀ e ∈ steps, Text.IsLine (line e))
    {text : Text} {hunks : List Hunk} (hb : readBody (Text.lines text) = some ⟨false, [], hunks⟩) :
    readBody (Text.lines (steps.flatMap renderEdit ++ text)) = some ⟨false, steps, hunks⟩ := by
  induction steps with
  | nil => exact hb
  | cons e rest ih =>
    have hrest := ih fun e' he' => hsteps e' (List.mem_cons_of_mem _ he')
    rw [List.flatMap_cons, List.append_assoc]
    exact readBody_renderEdit (hsteps e List.mem_cons_self) hrest rfl

end Patch

/-- The steps from the one numbered `i` up to the one numbered `j`. -/
def stepsFrom (script : List (Edit Text)) (i j : Nat) : List (Edit Text) :=
  (script.drop i).take (j - i)

/-- The number of items that the steps before the one numbered `i` show in a view. -/
def seenBefore (view : Edit Text → Option Text) (script : List (Edit Text)) (i : Nat) : Nat :=
  ((script.take i).filterMap view).length

/-- The number of items that steps show in a view. -/
def shownIn (view : Edit Text → Option Text) (steps : List (Edit Text)) : Nat :=
  (steps.filterMap view).length

/-- The hunk made up of the steps in a range. -/
def hunkOf (script : List (Edit Text)) (range : Nat × Nat) : Hunk where
  old := .behind (seenBefore Edit.before? script range.1)
    (shownIn Edit.before? (stepsFrom script range.1 range.2))
  new := .behind (seenBefore Edit.after? script range.1)
    (shownIn Edit.after? (stepsFrom script range.1 range.2))
  steps := stepsFrom script range.1 range.2

/-- The hunks of a script. -/
def hunksOf (script : List (Edit Text)) : List Hunk :=
  (hunks script.length none 0 script).map (hunkOf script)

namespace Patch

theorem readBody_renderHunk {script : List (Edit Text)}
    (hscript : ∀ e ∈ script, Text.IsLine (line e)) (s t : Nat) {text : Text} {later : List Hunk}
    (hb : readBody (Text.lines text) = some ⟨false, [], later⟩) :
    readBody (Text.lines (renderHunk script s t ++ text)) =
      some ⟨false, [], hunkOf script (s, t) :: later⟩ := by
  have hsteps : ∀ e ∈ stepsFrom script s t, Text.IsLine (line e) :=
    fun e he => hscript e (List.mem_of_mem_drop (List.mem_of_mem_take he))
  have hsplit : renderHunk script s t ++ text =
      header (seenBefore Edit.before? script s) (shownIn Edit.before? (stepsFrom script s t))
          (seenBefore Edit.after? script s) (shownIn Edit.after? (stepsFrom script s t)) ++
        '\n' :: ((stepsFrom script s t).flatMap renderEdit ++ text) := by
    simp [renderHunk, header, stepsFrom, seenBefore, shownIn]
  generalize hh : header _ _ _ _ = h at hsplit
  have hnewline : '\n' ∉ h := hh ▸ newline_not_mem_header _ _ _ _
  have hread : readHeader (h ++ ['\n']) =
      some ((hunkOf script (s, t)).old, (hunkOf script (s, t)).new) := hh ▸ readHeader_header _ _ _ _
  have hne : h ++ ['\n'] ≠ bareMark := by
    rw [← hh]
    intro heq
    exact absurd (List.cons.inj heq).1 (by decide)
  rw [hsplit, Text.lines_append_cons hnewline, readBody, readBody_steps hsteps hb, Option.bind_some,
    Body.push, if_neg hne, hread]
  rfl

theorem readBody_hunks {script : List (Edit Text)} (hscript : ∀ e ∈ script, Text.IsLine (line e))
    (ranges : List (Nat × Nat)) :
    readBody (Text.lines (ranges.flatMap fun (s, t) => renderHunk script s t)) =
      some ⟨false, [], ranges.map (hunkOf script)⟩ := by
  induction ranges with
  | nil => rfl
  | cons range rest ih => exact readBody_renderHunk hscript range.1 range.2 ih

/-! ## 4. Carrying hunks out -/

theorem filterMap_drop {script : List (Edit Text)} (view : Edit Text → Option Text) {i j : Nat}
    (h : i ≤ j) :
    (script.drop i).filterMap view =
      (stepsFrom script i j).filterMap view ++ (script.drop j).filterMap view := by
  have hsplit : script.drop i = stepsFrom script i j ++ script.drop j := by
    rw [stepsFrom]
    conv => lhs; rw [← List.take_append_drop (j - i) (script.drop i)]
    rw [List.drop_drop, Nat.add_sub_cancel' h]
  rw [hsplit, List.filterMap_append]

theorem seenBefore_add (script : List (Edit Text)) (view : Edit Text → Option Text) {i j : Nat}
    (h : i ≤ j) :
    seenBefore view script j = seenBefore view script i + shownIn view (stepsFrom script i j) := by
  have hsplit : script.take j = script.take i ++ stepsFrom script i j := by
    rw [stepsFrom, List.take_drop, Nat.add_sub_cancel' h]
    conv => lhs; rw [← List.take_append_drop i (script.take j)]
    rw [List.take_take, Nat.min_eq_left h]
  rw [seenBefore, hsplit, List.filterMap_append, List.length_append]
  rfl

/-- Hunks that leave out nothing but steps that keep their items make what the script leads to out
of what it leads from. -/
theorem applyHunks_covers {script : List (Edit Text)} {start : Nat} {ranges : List (Nat × Nat)}
    (h : Covers script start ranges) :
    applyHunks (seenBefore Edit.before? script start) (seenBefore Edit.after? script start)
        ((script.drop start).filterMap Edit.before?) (ranges.map (hunkOf script)) =
      some ((script.drop start).filterMap Edit.after?) := by
  induction ranges generalizing start with
  | nil => rw [List.map_nil, applyHunks, views_of_kept h]
  | cons range rest ih =>
    obtain ⟨s, t⟩ := range
    obtain ⟨hstart, hst, -, hkept, hrest⟩ := h
    have hsame : (stepsFrom script start s).filterMap Edit.after? =
        (stepsFrom script start s).filterMap Edit.before? := views_of_kept hkept
    have hseen := seenBefore_add script Edit.before? hstart
    have hmade := seenBefore_add script Edit.after? hstart
    have hlater := ih hrest
    rw [seenBefore_add script _ hst, seenBefore_add script _ hst, hseen, hmade] at hlater
    -- the lines between the hunk and what is used up are those of the steps between them
    have hgap : (hunkOf script (s, t)).old.before - seenBefore Edit.before? script start =
        ((stepsFrom script start s).filterMap Edit.before?).length := by
      simp only [hunkOf, Part.behind_before, hseen, shownIn]
      omega
    rw [filterMap_drop Edit.before? hstart, filterMap_drop Edit.after? hstart,
      filterMap_drop Edit.before? hst, filterMap_drop Edit.after? hst, hsame]
    simp only [List.map_cons, applyHunks, hgap]
    rw [if_pos]
    · have hdrop : ∀ K H R : List Text, (K ++ (H ++ R)).drop (K.length + H.length) = R := by
        intro K H R
        rw [← List.append_assoc, ← List.length_append, List.drop_left]
      simp only [shownIn, hsame] at hlater
      simp [hunkOf, hdrop, hlater]
    · refine ⟨?_, by simp, ?_, rfl, rfl, by simp [hunkOf]⟩
      · simp [hunkOf, hseen]
      · simp [hunkOf, hmade, shownIn, hsame]

/-- The hunks of a script make what it leads to out of what it leads from. -/
theorem applyHunks_hunks (script : List (Edit Text)) :
    applyHunks 0 0 (script.filterMap Edit.before?) (hunksOf script) =
      some (script.filterMap Edit.after?) := applyHunks_covers (covers_hunks script)

/-- The diff of two versions is read as the hunks of the script between them. -/
theorem readHunks_unified {path old new : Text} (h : old ≠ new) :
    readHunks path (unified path old new) =
      some (hunksOf (Script.between (Text.lines old) (Text.lines new))) := by
  have hold := Script.before_between (Text.lines old) (Text.lines new)
  have hnew := Script.after_between (Text.lines old) (Text.lines new)
  rw [unified, if_neg h]
  generalize Script.between (Text.lines old) (Text.lines new) = script at hold hnew ⊢
  have hscript : ∀ e ∈ script, Text.IsLine (line e) := by
    intro e he
    cases e with
    | keep l | drop l =>
      refine Text.isLine_of_mem_lines (show l ∈ Text.lines old from ?_)
      rw [← hold]
      exact List.mem_filterMap.mpr ⟨_, he, rfl⟩
    | add l =>
      refine Text.isLine_of_mem_lines (show l ∈ Text.lines new from ?_)
      rw [← hnew]
      exact List.mem_filterMap.mpr ⟨_, he, rfl⟩
  change readHunks path (title path ++ (hunks script.length none 0 script).flatMap fun (s, t) =>
    renderHunk script s t) = _
  rw [readHunks, expect_append]
  simp only [Option.bind_eq_bind, Option.bind_some]
  rw [readBody_hunks hscript]
  simp [hunksOf]

end Patch

/-- The diff of two versions turns the first into the second. -/
theorem patch_unified (path old new : Text) : patch path (unified path old new) old = some new := by
  by_cases h : old = new
  · simp [patch, unified, h]
  · have hne : unified path old new ≠ [] := by simp [unified, h]
    rw [patch, if_neg hne, Patch.readHunks_unified h]
    simp only [Option.bind_eq_bind, Option.bind_some]
    have hmade := Patch.applyHunks_hunks (Script.between (Text.lines old) (Text.lines new))
    rw [Script.before_between, Script.after_between] at hmade
    rw [hmade, Option.bind_some, Text.flatten_lines]
    rfl

end Diff

end Crosslink
