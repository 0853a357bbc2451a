import Crosslink.Edit
import Crosslink.Proofs.Apart

/-!
# What taking a construct out takes along

A construct that is taken out of a source takes its line along, or the blanks after it, or those
before it. It begins and ends with characters that are no blanks, so what it takes along ends before
the construct after it begins, and begins after the one before it ends. Two constructs that are both
taken out can claim the same blanks in one layout only: the first takes the blanks up to the second,
and the second those back to the first.

## Main statements

* `Edit.takeOut_bounds`: what is taken along stays clear of other constructs.
* `Edit.takeOut_before_iff`: where two constructs claim the same blanks.
-/

namespace Crosslink

variable {source x y z u w : Text} {c : Char} {p : Char → Bool} {a b s : Span} {n : Nat}

/-! ## §1 The parts of a line -/

namespace Text

theorem width_takeWhile_append_le (hc : p c = false) :
    width ((z ++ c :: w).takeWhile p) ≤ width z := by
  induction z with
  | nil => simp [hc]
  | cons d z ih =>
    rw [List.cons_append, List.takeWhile_cons]
    split
    · simp only [width_cons]
      omega
    · simp

theorem width_reverse (z : Text) : width z.reverse = width z := by
  induction z with
  | nil => rfl
  | cons d z ih => simp [ih, Nat.add_comm]

theorem width_le_trimEnd (hc : p c = false) : width (u ++ [c]) ≤ width (trimEnd p (u ++ c :: w)) := by
  have hdrop : ∀ v : Text, width (c :: u.reverse) ≤ width ((v ++ c :: u.reverse).dropWhile p) := by
    intro v
    induction v with
    | nil => simp [hc]
    | cons d v ih =>
      rw [List.cons_append, List.dropWhile_cons]
      split
      · exact ih
      · simp only [width_cons, width_append]
        omega
  have := hdrop w.reverse
  simp only [trimEnd, width_reverse, List.reverse_append, List.reverse_cons, List.append_assoc,
    List.singleton_append] at this ⊢
  simp only [width_cons, width_reverse] at this
  simp only [width_append, width_cons, width_nil]
  omega

/-- What is trimmed away are characters at the end. -/
theorem exists_trimEnd (p : Char → Bool) (z : Text) :
    ∃ v, z = trimEnd p z ++ v ∧ v.all p = true := by
  refine ⟨(z.reverse.takeWhile p).reverse, ?_, by simp [List.all_takeWhile]⟩
  rw [trimEnd, ← List.reverse_append, List.takeWhile_append_dropWhile, List.reverse_reverse]

theorem trimEnd_append_of_all (hc : p c = false) (hz : z.all p = true) :
    trimEnd p (u ++ c :: z) = u ++ [c] := by
  have hdrop : ∀ v : Text, v.all p = true → (v ++ c :: u.reverse).dropWhile p = c :: u.reverse := by
    intro v hv
    induction v with
    | nil => simp [hc]
    | cons d v ih =>
      rw [List.all_cons, Bool.and_eq_true] at hv
      rw [List.cons_append, List.dropWhile_cons, if_pos hv.1]
      exact ih hv.2
  have := hdrop z.reverse (by simpa using hz)
  rw [trimEnd, List.reverse_append, List.reverse_cons, List.append_assoc, List.singleton_append, this]
  simp

end Text

namespace Line

open Text

theorem skipBlanks_eq (x y : Text) : skipBlanks (x ++ y) (width x) =
    width x + width (y.takeWhile isIndent) := by
  rw [skipBlanks, before_width, after_width]

theorem stop_eq (x y : Text) :
    stop (x ++ y) (width x) = width x + width (y.takeWhile (· ≠ '\n')) := by
  rw [stop, rest, before_width, after_width]

theorem blankAfter_eq (x y : Text) : blankAfter (x ++ y) (width x) =
    (y.takeWhile (· ≠ '\n')).all fun c => isIndent c || c = '\r' := by
  rw [blankAfter, rest, after_width]

theorem head_eq (x y : Text) :
    head (x ++ y) (width x) = (x.reverse.takeWhile (· ≠ '\n')).reverse := by
  rw [head, before_width]

/-- The parts of the text before a place: what stands before the line, and the head of the line. -/
theorem exists_head (x y : Text) :
    ∃ v, x = v ++ head (x ++ y) (width x) ∧ start (x ++ y) (width x) = width v ∧
      ∀ d ∈ v.getLast?, d = '\n' := by
  rw [head_eq]
  refine ⟨(x.reverse.dropWhile (· ≠ '\n')).reverse, ?_, ?_, fun d hd => ?_⟩
  · rw [← List.reverse_append, List.takeWhile_append_dropWhile, List.reverse_reverse]
  · have hx := congrArg width (List.takeWhile_append_dropWhile (p := (· ≠ '\n')) (l := x.reverse))
    rw [width_append, width_reverse] at hx
    rw [start, head_eq, before_width, width_reverse, width_reverse]
    omega
  · have hhead := List.head?_dropWhile_not (fun c : Char => decide (c ≠ '\n')) x.reverse
    rw [List.getLast?_reverse] at hd
    rw [Option.mem_def.mp hd] at hhead
    simpa using hhead

theorem takeWhile_append_of_line (hz : '\n' ∉ z) (t : Text) :
    (z ++ t).takeWhile (· ≠ '\n') = z ++ t.takeWhile (· ≠ '\n') :=
  List.takeWhile_append_of_pos fun c hc => decide_eq_true fun h : c = '\n' => hz (h ▸ hc)

theorem next_eq_of_newline (hz : '\n' ∉ z) :
    next (x ++ (z ++ '\n' :: y)) (width x) = width x + width z + 1 := by
  have htake : (z ++ '\n' :: y).takeWhile (· ≠ '\n') = z := by
    rw [takeWhile_append_of_line hz]
    simp
  have hlt : width x + width z < width (x ++ (z ++ '\n' :: y)) := by
    have := ('\n' : Char).utf8Size_pos
    simp only [width_append, width_cons]
    omega
  rw [next, stop_eq, htake]
  exact if_pos hlt

/-- What an edit asks of a line are places between two characters. -/
theorem start_le (h : isBoundary n source = true) :
    isBoundary (start source n) source = true ∧ start source n ≤ n := by
  obtain ⟨x, y, rfl, rfl⟩ := isBoundary_iff.mp h
  obtain ⟨v, hv, hstart, -⟩ := exists_head x y
  rw [hstart]
  refine ⟨isBoundary_iff.mpr ⟨v, head (x ++ y) (width x) ++ y, ?_, rfl⟩, ?_⟩
  · conv => lhs; rw [hv, List.append_assoc]
  · have := congrArg width hv
    rw [width_append] at this
    omega

theorem le_skipBlanks (h : isBoundary n source = true) :
    isBoundary (skipBlanks source n) source = true ∧ n ≤ skipBlanks source n := by
  obtain ⟨x, y, rfl, rfl⟩ := isBoundary_iff.mp h
  rw [skipBlanks_eq]
  refine ⟨isBoundary_iff.mpr ⟨x ++ y.takeWhile isIndent, y.dropWhile isIndent, ?_, by simp⟩,
    Nat.le_add_right _ _⟩
  rw [List.append_assoc, List.takeWhile_append_dropWhile]

theorem le_next (h : isBoundary n source = true) :
    isBoundary (next source n) source = true ∧ n ≤ next source n := by
  obtain ⟨x, y, rfl, rfl⟩ := isBoundary_iff.mp h
  by_cases hy : '\n' ∈ y
  · obtain ⟨z, w, rfl, hz⟩ := List.eq_append_cons_of_mem hy
    rw [next_eq_of_newline hz]
    refine ⟨isBoundary_iff.mpr ⟨x ++ (z ++ ['\n']), w, by simp, ?_⟩, by omega⟩
    simp only [width_append, width_cons, width_nil]
    rfl
  · have hrest : y.takeWhile (· ≠ '\n') = y := by
      simpa using takeWhile_append_of_line hy []
    have hnext : next (x ++ y) (width x) = width (x ++ y) := by
      rw [next, stop_eq, hrest, width_append]
      simp
    rw [hnext, width_append]
    exact ⟨isBoundary_iff.mpr ⟨x ++ y, [], by simp, by simp⟩, by omega⟩

theorem trimEnd_le (h : isBoundary n source = true) :
    isBoundary (width (trimEnd p (before n source))) source = true ∧
      width (trimEnd p (before n source)) ≤ n := by
  obtain ⟨x, y, rfl, rfl⟩ := isBoundary_iff.mp h
  rw [before_width]
  obtain ⟨v, hv, -⟩ := exists_trimEnd p x
  refine ⟨isBoundary_iff.mpr ⟨_, v ++ y, ?_, rfl⟩, ?_⟩
  · conv => lhs; rw [hv, List.append_assoc]
  · have := congrArg width hv
    rw [width_append] at this
    omega

end Line

/-! ## §2 Between two characters that are no blanks -/

namespace Line

open Text

/-- A character that is no blank is neither the end of a line nor an indentation. -/
theorem of_not_blank (hc : isAsciiBlank c = false) :
    isIndent c = false ∧ c ≠ '\n' ∧ (isIndent c || c = '\r') = false := by
  simp only [isAsciiBlank, Bool.or_eq_false_iff, decide_eq_false_iff_not] at hc
  obtain ⟨⟨⟨⟨hspace, htab⟩, hline⟩, -⟩, hreturn⟩ := hc
  simp [isIndent, hspace, htab, hline, hreturn]

/-- A line that is blank ends before the next character that is no blank. -/
theorem exists_newline_after (hc : isAsciiBlank c = false)
    (h : blankAfter (x ++ (z ++ c :: y)) (width x) = true) :
    ∃ z₁ z₂, z = z₁ ++ '\n' :: z₂ ∧ '\n' ∉ z₁ ∧
      next (x ++ (z ++ c :: y)) (width x) = width x + width z₁ + 1 := by
  obtain ⟨-, hline, hblank⟩ := of_not_blank hc
  rw [blankAfter_eq] at h
  by_cases hz : '\n' ∈ z
  · obtain ⟨z₁, z₂, rfl, hz₁⟩ := List.eq_append_cons_of_mem hz
    rw [List.append_assoc, List.cons_append]
    exact ⟨z₁, z₂, rfl, hz₁, next_eq_of_newline hz₁⟩
  · rw [takeWhile_append_of_line hz, List.takeWhile_cons, if_pos (decide_eq_true hline),
      List.all_append, List.all_cons, hblank] at h
    simp at h

/-- A line that is blank before a place begins after the last character that is no blank. -/
theorem exists_newline_before (hc : isAsciiBlank c = false)
    (h : blankBefore (x ++ c :: (z ++ y)) (width (x ++ c :: z)) = true) :
    ∃ z₁ z₂, z = z₁ ++ '\n' :: z₂ ∧
      start (x ++ c :: (z ++ y)) (width (x ++ c :: z)) = width (x ++ c :: (z₁ ++ ['\n'])) := by
  obtain ⟨hindent, hline, -⟩ := of_not_blank hc
  have hsource : x ++ c :: (z ++ y) = (x ++ c :: z) ++ y := by simp
  rw [hsource] at h ⊢
  obtain ⟨v, hv, hstart, hlast⟩ := exists_head (x ++ c :: z) y
  rw [blankBefore] at h
  rw [hstart]
  generalize head (x ++ c :: z ++ y) (width (x ++ c :: z)) = t at h hv
  have hfree : c ∉ t := fun hmem => by
    rw [List.all_eq_true.mp h c hmem] at hindent
    cases hindent
  obtain ⟨v', rfl, ht⟩ | ⟨t', -, rfl⟩ := List.append_eq_append_iff.mp hv
  · cases v' with
    | nil => exact absurd (by rw [List.nil_append] at ht; rw [← ht]; simp) hfree
    | cons d v' =>
      obtain ⟨rfl, rfl⟩ := List.cons.inj ht
      obtain rfl | ⟨z₁, e, rfl⟩ := List.eq_nil_or_concat v'
      · exact absurd (hlast c (by simp)) hline
      · have hshift : x ++ c :: z₁.concat e = (x ++ c :: z₁) ++ [e] := by simp
        obtain rfl : e = '\n' := hlast e (by rw [hshift]; exact List.getLast?_concat)
        exact ⟨z₁, t, by simp, by simp⟩
  · exact absurd (by simp) hfree

end Line

/-! ## §3 Constructs between two characters that are no blanks -/

/-- The span begins and ends with characters that are no blanks. -/
structure Span.Framed (source : Text) (s : Span) : Prop where
  lt : s.start < s.stop
  first : ∃ (u w : Text) (c : Char), source = u ++ c :: w ∧ s.start = Text.width u ∧
    isAsciiBlank c = false
  last : ∃ (u w : Text) (c : Char), source = u ++ c :: w ∧ s.stop = Text.width (u ++ [c]) ∧
    isAsciiBlank c = false

namespace Edit

open Text

theorem fits_of_framed (h : a.Framed source) : a.Fits source := by
  obtain ⟨u, w, c, rfl, hstart, -⟩ := h.first
  obtain ⟨u', w', d, hsource, hstop, -⟩ := h.last
  refine ⟨Nat.le_of_lt h.lt, Text.isBoundary_iff.mpr ⟨u, _, rfl, hstart⟩, ?_⟩
  exact Text.isBoundary_iff.mpr ⟨u' ++ [d], w', by simpa using hsource, hstop⟩

/-- Two places in a text part it in three. -/
theorem exists_between {x y x' y' : Text} (h : x ++ y = x' ++ y') (hle : width x ≤ width x') :
    ∃ z, x' = x ++ z ∧ y = z ++ y' := by
  obtain ⟨z, rfl, rfl⟩ | ⟨z, rfl, rfl⟩ := List.append_eq_append_iff.mp h
  · exact ⟨z, rfl, rfl⟩
  · rw [width_append] at hle
    cases z with
    | nil => exact ⟨[], by simp, by simp⟩
    | cons d z =>
      have := d.utf8Size_pos
      simp only [width_cons] at hle
      omega

/-- The text between a construct and the next. -/
theorem exists_gap (ha : a.Framed source) (hb : b.Framed source) (hle : a.stop ≤ b.start) :
    ∃ (x z y : Text) (c d : Char), source = x ++ c :: (z ++ d :: y) ∧
      isAsciiBlank c = false ∧ isAsciiBlank d = false ∧
      a.stop = width (x ++ [c]) ∧ b.start = width (x ++ c :: z) := by
  obtain ⟨x, w, c, hsource, hstop, hc⟩ := ha.last
  obtain ⟨u, y, d, hsource', hstart, hd⟩ := hb.first
  obtain ⟨z, rfl, rfl⟩ := exists_between (show (x ++ [c]) ++ w = u ++ d :: y by rw [← hsource', hsource]; simp) (by omega)
  exact ⟨x, z, y, c, d, by simpa using hsource, hc, hd, hstop, by simpa using hstart⟩

/-- Two constructs stand on one line with nothing but blanks between them, and the second takes the
blanks before it along, since after it no blank stands or nothing but blanks. -/
structure Contended (source : Text) (a b : Span) : Prop where
  gap : a.stop < b.start
  blank : (Text.slice a.stop b.start source).all isIndent = true
  last : Line.skipBlanks source b.stop = b.stop ∨ Line.blankAfter source b.stop = true

instance (source : Text) (a b : Span) : Decidable (Contended source a b) :=
  decidable_of_iff (a.stop < b.start ∧ (Text.slice a.stop b.start source).all isIndent = true ∧
      (Line.skipBlanks source b.stop = b.stop ∨ Line.blankAfter source b.stop = true))
    ⟨fun ⟨gap, blank, last⟩ => ⟨gap, blank, last⟩, fun ⟨gap, blank, last⟩ => ⟨gap, blank, last⟩⟩

/-- The ways in which a construct is taken out. -/
theorem takeOut_cases (source : Text) (s : Span) :
    (Line.blankBefore source s.start = true ∧ Line.blankAfter source s.stop = true ∧
      (takeOut source s).span = ⟨Line.start source s.start, Line.next source s.stop⟩) ∨
    (Line.blankAfter source s.stop = false ∧ s.stop < Line.skipBlanks source s.stop ∧
      (takeOut source s).span = ⟨s.start, Line.skipBlanks source s.stop⟩) ∨
    ((Line.skipBlanks source s.stop ≤ s.stop ∨ Line.blankAfter source s.stop = true) ∧
      (takeOut source s).span = ⟨width (trimEnd isIndent (before s.start source)), s.stop⟩) := by
  unfold takeOut
  split
  · rename_i h
    obtain ⟨hbefore, hafter⟩ := Bool.and_eq_true_iff.mp h
    exact .inl ⟨hbefore, hafter, rfl⟩
  · dsimp only
    split
    · rename_i h
      obtain ⟨hlt, hafter⟩ := Bool.and_eq_true_iff.mp h
      exact .inr (.inl ⟨by simpa using hafter, of_decide_eq_true hlt, rfl⟩)
    · rename_i h
      refine .inr (.inr ⟨?_, rfl⟩)
      simp only [Bool.and_eq_true, decide_eq_true_eq, not_and, Bool.not_eq_true',
        Bool.not_eq_false] at h
      obtain hle | hlt := Nat.lt_or_ge s.stop (Line.skipBlanks source s.stop)
      · exact .inr (h hle)
      · exact .inl hlt

/-- What is taken out is a part of the text that holds the construct. -/
theorem takeOut_holds (h : s.Framed source) :
    (takeOut source s).span.Fits source ∧ (takeOut source s).span.start ≤ s.start ∧
      s.stop ≤ (takeOut source s).span.stop := by
  have hfits := fits_of_framed h
  have hle := hfits.le
  have hstart := Line.start_le hfits.start
  have hnext := Line.le_next hfits.stop
  have hskip := Line.le_skipBlanks hfits.stop
  have htrim := Line.trimEnd_le (p := isIndent) hfits.start
  obtain ⟨-, -, hspan⟩ | ⟨-, -, hspan⟩ | ⟨-, hspan⟩ := takeOut_cases source s <;> rw [hspan]
  · exact ⟨⟨by dsimp only; omega, hstart.1, hnext.1⟩, hstart.2, hnext.2⟩
  · exact ⟨⟨by dsimp only; omega, hfits.start, hskip.1⟩, Nat.le_refl _, hskip.2⟩
  · exact ⟨⟨by dsimp only; omega, htrim.1, hfits.stop⟩, htrim.2, Nat.le_refl _⟩

/-- The line after a construct begins before the next construct, if the line is blank behind the first. -/
theorem next_le (ha : a.Framed source) (hb : b.Framed source) (hle : a.stop ≤ b.start)
    (hblank : Line.blankAfter source a.stop = true) : Line.next source a.stop ≤ b.start := by
  obtain ⟨x, z, y, c, d, rfl, -, hd, hstop, hstart⟩ := exists_gap ha hb hle
  have hsource : x ++ c :: (z ++ d :: y) = (x ++ [c]) ++ (z ++ d :: y) := by simp
  rw [hsource, hstop] at hblank ⊢
  obtain ⟨z₁, z₂, rfl, -, hnext⟩ := Line.exists_newline_after hd hblank
  rw [hnext, hstart]
  have := ('\n' : Char).utf8Size_pos
  simp only [width_append, width_cons, width_nil]
  omega

/-- What is taken along with a construct ends before the next. -/
theorem takeOut_stop_le (ha : a.Framed source) (hb : b.Framed source) (hle : a.stop ≤ b.start) :
    (takeOut source a).span.stop ≤ b.start := by
  obtain ⟨-, hafter, hspan⟩ | ⟨-, -, hspan⟩ | ⟨-, hspan⟩ := takeOut_cases source a <;> rw [hspan] <;>
    dsimp only
  · exact next_le ha hb hle hafter
  · obtain ⟨x, z, y, c, d, rfl, -, hd, hstop, hstart⟩ := exists_gap ha hb hle
    have hsource : x ++ c :: (z ++ d :: y) = (x ++ [c]) ++ (z ++ d :: y) := by simp
    rw [hsource, hstart, hstop, Line.skipBlanks_eq]
    have := width_takeWhile_append_le (z := z) (w := y) (Line.of_not_blank hd).1
    simp only [width_append, width_cons, width_nil] at this ⊢
    omega
  · exact hle

/-- What is taken along with a construct begins after every character before it that is neither a
space nor a tab. -/
theorem char_le_takeOut_start (hc : isIndent c = false) (hstart : b.start = width (x ++ c :: z)) :
    width (x ++ [c]) ≤ (takeOut (x ++ c :: (z ++ y)) b).span.start := by
  have hsource : x ++ c :: (z ++ y) = (x ++ c :: z) ++ y := by simp
  rw [hsource]
  obtain ⟨hbefore, -, hspan⟩ | ⟨-, -, hspan⟩ | ⟨-, hspan⟩ :=
    takeOut_cases ((x ++ c :: z) ++ y) b <;> rw [hspan] <;> dsimp only <;> rw [hstart]
  · rw [hstart] at hbefore
    obtain ⟨v, hv, hline, -⟩ := Line.exists_head (x ++ c :: z) y
    rw [hline]
    rw [Line.blankBefore] at hbefore
    have hfree : c ∉ Line.head (x ++ c :: z ++ y) (width (x ++ c :: z)) := fun hmem => by
      rw [List.all_eq_true.mp hbefore c hmem] at hc
      cases hc
    obtain ⟨v', rfl, hrest⟩ | ⟨t, -, hhead⟩ := List.append_eq_append_iff.mp hv
    · cases v' with
      | nil => exact absurd (by rw [← List.nil_append (Line.head _ _), ← hrest]; simp) hfree
      | cons d v' =>
        obtain ⟨rfl, -⟩ := List.cons.inj hrest
        simp only [width_append, width_cons, width_nil]
        omega
    · exact absurd (by rw [hhead]; simp) hfree
  · simp only [width_append, width_cons, width_nil]
    omega
  · rw [before_width]
    exact width_le_trimEnd hc

/-- What is taken along with a construct stands on no line before one that starts before the construct. -/
theorem line_le_takeOut_start (hn : isBoundary n source = true) (hb : b.Framed source) (hle : n ≤ b.start) :
    Line.start source n ≤ (takeOut source b).span.start := by
  obtain ⟨x, y, rfl, rfl⟩ := isBoundary_iff.mp hn
  obtain ⟨v, hv, hline, hlast⟩ := Line.exists_head x y
  rw [hline]
  obtain rfl | ⟨u, d, rfl⟩ := List.eq_nil_or_concat v
  · exact Nat.zero_le _
  · obtain rfl : d = '\n' := hlast d (by simp)
    obtain ⟨w, y', e, hsource, hstart, -⟩ := hb.first
    obtain ⟨z, rfl, hrest⟩ := exists_between (show x ++ y = w ++ e :: y' from hsource) (by omega)
    generalize Line.head (x ++ y) (width x) = head at hv
    subst hv
    have hsplit : u.concat '\n' ++ head ++ y = u ++ '\n' :: ((head ++ z) ++ e :: y') := by simp [hrest]
    rw [hsplit]
    have := char_le_takeOut_start (x := u) (z := head ++ z) (y := e :: y') (b := b)
      (by decide : isIndent '\n' = false) (by simp [hstart])
    simpa using this

/-- What is taken along with a construct begins after the one before. -/
theorem le_takeOut_start (ha : a.Framed source) (hb : b.Framed source) (hle : a.stop ≤ b.start) :
    a.stop ≤ (takeOut source b).span.start := by
  obtain ⟨x, z, y, c, d, rfl, hc, -, hstop, hstart⟩ := exists_gap ha hb hle
  rw [hstop]
  exact char_le_takeOut_start (Line.of_not_blank hc).1 hstart

/-- The blanks after a construct end before its line does. -/
theorem skipBlanks_le_start (hc : isAsciiBlank c = false)
    (h : Line.blankBefore (x ++ c :: (z ++ y)) (width (x ++ c :: z)) = true) :
    Line.skipBlanks (x ++ c :: (z ++ y)) (width (x ++ [c])) ≤
      Line.start (x ++ c :: (z ++ y)) (width (x ++ c :: z)) := by
  obtain ⟨z₁, z₂, rfl, hline⟩ := Line.exists_newline_before hc h
  have hsource : x ++ c :: ((z₁ ++ '\n' :: z₂) ++ y) = (x ++ [c]) ++ (z₁ ++ '\n' :: (z₂ ++ y)) := by
    simp
  have hskip := width_takeWhile_append_le (z := z₁) (w := z₂ ++ y) (p := isIndent)
    (show isIndent '\n' = false by decide)
  rw [hline, hsource, Line.skipBlanks_eq]
  simp only [width_append, width_cons, width_nil] at hskip ⊢
  omega

/-- A line that is blank ends before another that is blank so far begins. -/
theorem next_le_start {d : Char} (hc : isAsciiBlank c = false) (hd : isAsciiBlank d = false)
    (hafter : Line.blankAfter (x ++ c :: (z ++ d :: y)) (width (x ++ [c])) = true)
    (hbefore : Line.blankBefore (x ++ c :: (z ++ d :: y)) (width (x ++ c :: z)) = true) :
    Line.next (x ++ c :: (z ++ d :: y)) (width (x ++ [c])) ≤
      Line.start (x ++ c :: (z ++ d :: y)) (width (x ++ c :: z)) := by
  obtain ⟨w₁, w₂, hz, hline⟩ := Line.exists_newline_before hc hbefore
  rw [hline]
  have hsource : x ++ c :: (z ++ d :: y) = (x ++ [c]) ++ (z ++ d :: y) := by simp
  rw [hsource] at hafter ⊢
  obtain ⟨z₁, z₂, hz', hz₁, hnext⟩ := Line.exists_newline_after hd hafter
  rw [hnext]
  obtain ⟨v, rfl, -⟩ | ⟨v, hv, hv'⟩ := List.append_eq_append_iff.mp (hz'.symm.trans hz)
  · simp only [width_append, width_cons, width_nil]
    have := ('\n' : Char).utf8Size_pos
    omega
  · cases v with
    | nil =>
      rw [List.append_nil] at hv
      subst hv
      simp only [width_append, width_cons, width_nil]
      have := ('\n' : Char).utf8Size_pos
      omega
    | cons e v =>
      obtain ⟨rfl, -⟩ := List.cons.inj hv'
      exact absurd (by rw [hv]; simp) hz₁

/-- A line that is blank ends before the blanks that stand before the next construct. -/
theorem next_le_trimEnd {d : Char} (hd : isAsciiBlank d = false)
    (hafter : Line.blankAfter (x ++ c :: (z ++ d :: y)) (width (x ++ [c])) = true) :
    Line.next (x ++ c :: (z ++ d :: y)) (width (x ++ [c])) ≤
      width (trimEnd isIndent (x ++ c :: z)) := by
  have hsource : x ++ c :: (z ++ d :: y) = (x ++ [c]) ++ (z ++ d :: y) := by simp
  rw [hsource] at hafter ⊢
  obtain ⟨z₁, z₂, rfl, -, hnext⟩ := Line.exists_newline_after hd hafter
  have htrim := width_le_trimEnd (u := x ++ c :: z₁) (w := z₂) (p := isIndent)
    (show isIndent '\n' = false by decide)
  have hwhole : (x ++ c :: z₁) ++ '\n' :: z₂ = x ++ c :: (z₁ ++ '\n' :: z₂) := by simp
  have hone : width ['\n'] = 1 := rfl
  rw [hwhole] at htrim
  rw [hnext]
  simp only [width_append, width_cons, width_nil] at htrim hone ⊢
  omega

/-- The blanks after a construct end before those before the next, if there is anything else between
the two. -/
theorem skipBlanks_le_trimEnd (hz : z.all isIndent = false) :
    Line.skipBlanks (x ++ c :: (z ++ y)) (width (x ++ [c])) ≤
      width (trimEnd isIndent (x ++ c :: z)) := by
  have hsource : x ++ c :: (z ++ y) = (x ++ [c]) ++ (z ++ y) := by simp
  rw [hsource, Line.skipBlanks_eq]
  obtain ⟨i, e, r, rfl, he⟩ : ∃ i e r, z = i ++ e :: r ∧ isIndent e = false := by
    obtain ⟨e, hmem, he⟩ := List.all_eq_false.mp hz
    obtain ⟨i, r, rfl⟩ := List.append_of_mem hmem
    exact ⟨i, e, r, rfl, by simpa using he⟩
  have hskip := width_takeWhile_append_le (z := i) (w := r ++ y) he
  have htrim := width_le_trimEnd (u := x ++ c :: i) (w := r) he
  have hwhole : (x ++ c :: i) ++ e :: r = x ++ c :: (i ++ e :: r) := by simp
  rw [hwhole] at htrim
  rw [List.append_assoc, List.cons_append]
  simp only [width_append, width_cons, width_nil] at hskip htrim ⊢
  omega

/-- What is known of two constructs on one line with nothing but blanks between them. -/
theorem of_blank {d : Char} (hc : isAsciiBlank c = false) (hd : isAsciiBlank d = false)
    (hz : z.all isIndent = true) :
    Line.blankAfter (x ++ c :: (z ++ d :: y)) (width (x ++ [c])) = false ∧
    Line.blankBefore (x ++ c :: (z ++ d :: y)) (width (x ++ c :: z)) = false ∧
    Line.skipBlanks (x ++ c :: (z ++ d :: y)) (width (x ++ [c])) = width (x ++ c :: z) ∧
    trimEnd isIndent (x ++ c :: z) = x ++ [c] := by
  have hsource : x ++ c :: (z ++ d :: y) = (x ++ [c]) ++ (z ++ d :: y) := by simp
  have hline : '\n' ∉ z := fun h => by
    have := List.all_eq_true.mp hz '\n' h
    revert this
    decide
  refine ⟨?_, ?_, ?_, trimEnd_append_of_all (Line.of_not_blank hc).1 hz⟩
  · refine Bool.eq_false_iff.mpr fun h => ?_
    rw [hsource] at h
    obtain ⟨z₁, z₂, rfl, -⟩ := Line.exists_newline_after hd h
    exact hline (by simp)
  · refine Bool.eq_false_iff.mpr fun h => ?_
    obtain ⟨z₁, z₂, rfl, -⟩ := Line.exists_newline_before hc h
    exact hline (by simp)
  · rw [hsource, Line.skipBlanks_eq, List.takeWhile_append_of_pos (List.all_eq_true.mp hz),
      List.takeWhile_cons, (Line.of_not_blank hd).1]
    simp [Nat.add_assoc]

/-- What is taken along with two constructs stays apart unless they contend for blanks. -/
theorem takeOut_before_iff (ha : a.Framed source) (hb : b.Framed source) (hle : a.stop ≤ b.start) :
    (takeOut source a).span.stop ≤ (takeOut source b).span.start ↔ ¬ Contended source a b := by
  have hstops := takeOut_stop_le ha hb hle
  have hstarts := le_takeOut_start ha hb hle
  obtain ⟨x, z, y, c, d, rfl, hc, hd, hstop, hstart⟩ := exists_gap ha hb hle
  have hslice : Text.slice a.stop b.start (x ++ c :: (z ++ d :: y)) = z := by
    have := slice_middle (x ++ [c]) z (d :: y)
    rw [hstop, hstart]
    simpa [Nat.add_assoc] using this
  have hbefore : before b.start (x ++ c :: (z ++ d :: y)) = x ++ c :: z := by
    have := before_width (x ++ c :: z) (d :: y)
    rw [hstart]
    simpa using this
  have hcasesA := takeOut_cases (x ++ c :: (z ++ d :: y)) a
  have hcasesB := takeOut_cases (x ++ c :: (z ++ d :: y)) b
  rw [hbefore, hstart] at hcasesB
  rw [hstop] at hcasesA
  cases hz : z.all isIndent with
  | true =>
    obtain ⟨hafter, hhead, hskip, htrim⟩ := of_blank (y := y) (x := x) hc hd hz
    rw [hafter, hskip] at hcasesA
    rw [hhead, htrim] at hcasesB
    obtain ⟨-, hfalse, -⟩ | ⟨-, hgap, hspan⟩ | ⟨hgap | hfalse, hspan⟩ := hcasesA
    · cases hfalse
    · obtain ⟨hfalse, -⟩ | ⟨hlast, hlt, hspan'⟩ | ⟨hlast, hspan'⟩ := hcasesB
      · cases hfalse
      · rw [hspan, hspan']
        refine iff_of_true (Nat.le_refl _) fun h => ?_
        obtain heq | htrue := h.last
        · omega
        · rw [hlast] at htrue
          cases htrue
      · rw [hspan, hspan']
        refine iff_of_false (Nat.not_le.mpr hgap) fun h => h ⟨by omega, by rw [hslice, hz], ?_⟩
        obtain hskip' | htrue := hlast
        · exact .inl (Nat.le_antisymm hskip' (Line.le_skipBlanks (fits_of_framed hb).stop).2)
        · exact .inr htrue
    · rw [hspan]
      refine iff_of_true (by dsimp only; omega) fun h => ?_
      have := h.gap
      omega
    · cases hfalse
  | false =>
    refine iff_of_true ?_ fun h => by rw [← hslice, h.blank] at hz; cases hz
    obtain ⟨-, hafter, hspan⟩ | ⟨-, -, hspan⟩ | ⟨-, hspan⟩ := hcasesA
    · obtain ⟨hhead, -, hspan'⟩ | ⟨-, -, hspan'⟩ | ⟨-, hspan'⟩ := hcasesB
      · rw [hspan, hspan']
        exact next_le_start hc hd hafter hhead
      · rw [hspan'] at hstarts ⊢
        exact hstart ▸ hstops
      · rw [hspan, hspan']
        exact next_le_trimEnd hd hafter
    · obtain ⟨hhead, -, hspan'⟩ | ⟨-, -, hspan'⟩ | ⟨-, hspan'⟩ := hcasesB
      · rw [hspan, hspan']
        exact skipBlanks_le_start hc hhead
      · rw [hspan'] at hstarts ⊢
        exact hstart ▸ hstops
      · rw [hspan, hspan']
        exact skipBlanks_le_trimEnd hz
    · rw [hspan]
      exact hstop ▸ hstarts

/-! ## §4 Items of a list and lines of their own -/

open Splice

/-- The deletions that take items out of a list stand in order from its first item to its last, and
none is empty. -/
theorem rowed_dropBeforeKept {start stop : Nat} {items : List (Span × Bool)}
    (hfits : ∀ x ∈ items, x.1.Fits source) (hlt : ∀ x ∈ items, x.1.start < x.1.stop)
    (horder : items.Pairwise fun x y => x.1.stop ≤ y.1.start)
    (hwithin : ∀ x ∈ items, start ≤ x.1.start ∧ x.1.stop ≤ stop) :
    Rowed source start stop (dropBeforeKept items) ∧
      ∀ s ∈ dropBeforeKept items, s.span.start < s.span.stop := by
  induction items generalizing start with
  | nil => exact ⟨.nil _ _ _, by simp [dropBeforeKept]⟩
  | cons x items ih =>
    obtain ⟨s, flag⟩ := x
    cases items with
    | nil => exact ⟨.nil _ _ _, by simp [dropBeforeKept]⟩
    | cons y items =>
      obtain ⟨next, flag'⟩ := y
      obtain ⟨hfirst, hrest⟩ := List.pairwise_cons.mp horder
      have hs := hfits (s, flag) (by simp)
      have hsn := hfirst (next, flag') (by simp)
      have hslt := hlt (s, flag) (by simp)
      have hsin := hwithin (s, flag) (by simp)
      have hnlt := hlt (next, flag') (by simp)
      have hnin := hwithin (next, flag') (by simp)
      dsimp only at hs hsn hslt hsin hnlt hnin
      have hlater := @ih next.start (fun x hx => hfits x (List.mem_cons_of_mem _ hx))
        (fun x hx => hlt x (List.mem_cons_of_mem _ hx)) hrest (fun x hx => by
          have hx' := hwithin x (List.mem_cons_of_mem _ hx)
          obtain rfl | hmem := List.mem_cons.mp hx
          · exact ⟨Nat.le_refl _, hx'.2⟩
          · have := (List.pairwise_cons.mp hrest).1 x hmem
            dsimp only at this
            exact ⟨by omega, hx'.2⟩)
      rw [dropBeforeKept]
      split
      · dsimp only
        split
        · -- the item and what stands between it and the next
          have hfirst : (Splice.delete ⟨s.start, next.start⟩).span.Fits source :=
            ⟨by simp only [Splice.span]; omega, hs.start,
              (hfits (next, flag') (by simp)).start⟩
          refine ⟨((Rowed.single hfirst).append hlater.1 ?_ ?_ ?_).widen ?_ (Nat.le_refl _), ?_⟩
          all_goals simp only [Splice.span]
          iterate 4 omega
          intro t ht
          obtain rfl | ht := List.mem_cons.mp ht
          · dsimp only
            omega
          · exact hlater.2 t ht
        · exact ⟨hlater.1.widen (by omega) (Nat.le_refl _), hlater.2⟩
      · split
        · exact ⟨.nil _ _ _, by simp⟩
        · split
          · -- from the last item that is kept to the end of the list
            rename_i last _ hlast
            have hmem := List.mem_of_getLast? hlast
            have hafter := hfirst _ hmem
            have hlastlt := hlt _ (List.mem_cons_of_mem _ hmem)
            have hlastin := hwithin _ (List.mem_cons_of_mem _ hmem)
            dsimp only at hafter hlastlt hlastin
            have hdelete : (Splice.delete ⟨s.stop, last.stop⟩).span.Fits source :=
              ⟨by simp only [Splice.span]; omega, hs.stop,
                (hfits _ (List.mem_cons_of_mem _ hmem)).stop⟩
            refine ⟨(Rowed.single hdelete).widen ?_ ?_, ?_⟩
            all_goals simp only [Splice.span]
            iterate 2 omega
            intro t ht
            obtain rfl := List.mem_singleton.mp ht
            dsimp only
            omega
          · exact ⟨.nil _ _ _, by simp⟩

theorem map_fst_zip_sublist (items : List Span) (flags : List Bool) :
    ((items.zip flags).map Prod.fst).Sublist items := by
  induction items generalizing flags with
  | nil => simp
  | cons s items ih =>
    cases flags with
    | nil => simp
    | cons flag flags => simpa using ih flags

theorem rowed_dropItems {start stop : Nat} {items : List Span} (flags : List Bool)
    (hfits : ∀ s ∈ items, s.Fits source) (hlt : ∀ s ∈ items, s.start < s.stop)
    (horder : items.Pairwise fun a b => a.stop ≤ b.start)
    (hwithin : ∀ s ∈ items, start ≤ s.start ∧ s.stop ≤ stop) :
    Rowed source start stop (dropItems items flags) ∧
      ∀ s ∈ dropItems items flags, s.span.start < s.span.stop := by
  have hmem : ∀ x ∈ items.zip flags, x.1 ∈ items := fun x hx => (List.of_mem_zip hx).1
  refine rowed_dropBeforeKept (fun x hx => hfits _ (hmem x hx)) (fun x hx => hlt _ (hmem x hx)) ?_
    fun x hx => hwithin _ (hmem x hx)
  exact List.pairwise_map.mp (horder.sublist (map_fst_zip_sublist items flags))

/-- All declarations that are added in one place are put in at one offset, which is not before the
end of the last anchor. -/
theorem exists_addPoint {anchors : List Span} {start : Nat}
    (hanchors : ∀ s ∈ anchors, s.Fits source) (hstart : Text.isBoundary start source = true) :
    ∃ n, Text.isBoundary n source = true ∧ (∀ s ∈ anchors.getLast?, s.stop ≤ n) ∧
      ∀ text, ∃ line, addLine source anchors start text = .insert n line := by
  unfold addLine
  cases hlast : anchors.getLast? with
  | none =>
    dsimp only
    split
    · exact ⟨_, (Line.start_le hstart).1, by simp, fun text => ⟨_, rfl⟩⟩
    · exact ⟨_, hstart, by simp, fun text => ⟨_, rfl⟩⟩
  | some anchor =>
    have hstop := (hanchors anchor (List.mem_of_getLast? hlast)).stop
    dsimp only
    split
    · exact ⟨_, hstop, by simp, fun text => ⟨_, rfl⟩⟩
    · split
      · exact ⟨_, hstop, by simp, fun text => ⟨_, rfl⟩⟩
      · exact ⟨_, (Line.le_next hstop).1, by simpa using (Line.le_next hstop).2,
          fun text => ⟨_, rfl⟩⟩

end Edit

end Crosslink
