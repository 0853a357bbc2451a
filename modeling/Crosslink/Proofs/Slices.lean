import Crosslink.Splice

/-!
# Cutting texts put together

Offsets count bytes, and a text is taken apart at the places where it was put together: before the
width of `a`, `a ++ b` is cut as `a` is, and after it as `b` is. From this comes what one splice
does to a text in three parts, and that a set of splices in order can be carried out one at a time
from the last place to the first.

## Main statements

* `Text.slice_middle`: the slice of the part in the middle.
* `Splice.weave_concat`: the last splice can be carried out first.
-/

namespace Crosslink

namespace Text

/-! ## 1. Before and after a place of joining -/

theorem utf8Size_ne_zero (c : Char) : c.utf8Size ≠ 0 := by
  have := c.utf8Size_pos
  omega

theorem width_eq_zero {a : Text} : width a = 0 ↔ a = [] := by
  cases a with
  | nil => simp
  | cons c cs => simp [utf8Size_ne_zero]

theorem before_zero (a : Text) : before 0 a = [] := by
  cases a with
  | nil => rfl
  | cons c cs => simp [before, utf8Size_ne_zero]

theorem after_zero (a : Text) : after 0 a = a := by
  cases a with
  | nil => rfl
  | cons c cs => simp [after, utf8Size_ne_zero]

theorem before_width_add (a b : Text) (n : Nat) : before (width a + n) (a ++ b) = a ++ before n b := by
  induction a with
  | nil => simp
  | cons c cs ih =>
    have h : c.utf8Size ≤ c.utf8Size + width cs + n := by omega
    have hrest : c.utf8Size + width cs + n - c.utf8Size = width cs + n := by omega
    simp [before, h, hrest, ih]

theorem after_width_add (a b : Text) (n : Nat) : after (width a + n) (a ++ b) = after n b := by
  induction a with
  | nil => simp
  | cons c cs ih =>
    have h : c.utf8Size ≤ c.utf8Size + width cs + n := by omega
    have hrest : c.utf8Size + width cs + n - c.utf8Size = width cs + n := by omega
    simp [after, h, hrest, ih]

@[simp] theorem before_width (a b : Text) : before (width a) (a ++ b) = a := by
  have h := before_width_add a b 0
  rwa [before_zero, List.append_nil] at h

@[simp] theorem after_width (a b : Text) : after (width a) (a ++ b) = b := by
  have h := after_width_add a b 0
  rwa [after_zero] at h

theorem before_append_of_le {a b : Text} {n : Nat} (h : n ≤ width a) :
    before n (a ++ b) = before n a := by
  induction a generalizing n with
  | nil =>
    obtain rfl : n = 0 := by simpa using h
    simp [before_zero]
  | cons c cs ih =>
    by_cases hc : c.utf8Size ≤ n
    · simp only [List.cons_append, before, if_pos hc]
      rw [ih (by simp only [width_cons] at h; omega)]
    · simp [before, hc]

theorem after_append_of_le {a b : Text} {n : Nat} (h : n ≤ width a) :
    after n (a ++ b) = after n a ++ b := by
  induction a generalizing n with
  | nil =>
    obtain rfl : n = 0 := by simpa using h
    simp [after_zero]
  | cons c cs ih =>
    by_cases hc : c.utf8Size ≤ n
    · simp only [List.cons_append, after, if_pos hc]
      exact ih (by simp only [width_cons] at h; omega)
    · simp [after, hc]

theorem width_after_le (n : Nat) (a : Text) : width a ≤ width (after n a) + n := by
  induction a generalizing n with
  | nil => simp
  | cons c cs ih =>
    by_cases hc : c.utf8Size ≤ n
    · have := ih (n - c.utf8Size)
      simp only [after, if_pos hc, width_cons]
      omega
    · simp [after, hc]

/-! ## 2. Slices -/

theorem slice_append_of_le {a b : Text} {start stop : Nat} (h : stop ≤ width a) :
    slice start stop (a ++ b) = slice start stop a := by
  unfold slice
  by_cases hs : start ≤ stop
  · rw [after_append_of_le (by omega)]
    refine before_append_of_le ?_
    have := width_after_le start a
    omega
  · rw [Nat.sub_eq_zero_of_le (by omega), before_zero, before_zero]

theorem slice_width_add (a b : Text) (start stop : Nat) :
    slice (width a + start) (width a + stop) (a ++ b) = slice start stop b := by
  unfold slice
  rw [after_width_add, Nat.add_sub_add_left]

/-- The slice of the part in the middle. -/
theorem slice_middle (a m b : Text) :
    slice (width a) (width a + width m) (a ++ (m ++ b)) = m := by
  have h := slice_width_add a (m ++ b) 0 (width m)
  rw [Nat.add_zero] at h
  rw [h, slice, after_zero, Nat.sub_zero, before_width]

theorem isBoundary_width (a b : Text) : isBoundary (width a) (a ++ b) = true := by
  induction a with
  | nil => simp [isBoundary]
  | cons c cs ih =>
    obtain ⟨n, hn⟩ : ∃ n, c.utf8Size + width cs = n + 1 :=
      ⟨c.utf8Size + width cs - 1, by have := c.utf8Size_pos; omega⟩
    have hrest : n + 1 - c.utf8Size = width cs := by omega
    have hle : c.utf8Size ≤ n + 1 := by omega
    simp [isBoundary, hn, hrest, hle, ih]

/-- The offsets that fall between two characters are the widths of the texts before them. -/
theorem isBoundary_iff {n : Nat} {text : Text} :
    isBoundary n text = true ↔ ∃ a b, text = a ++ b ∧ n = width a := by
  constructor
  · intro h
    induction text generalizing n with
    | nil =>
      cases n with
      | zero => exact ⟨[], [], rfl, rfl⟩
      | succ n => simp [isBoundary] at h
    | cons c cs ih =>
      cases n with
      | zero => exact ⟨[], c :: cs, rfl, rfl⟩
      | succ n =>
        obtain ⟨hle, hrest⟩ : c.utf8Size ≤ n + 1 ∧ isBoundary (n + 1 - c.utf8Size) cs = true := by
          simpa [isBoundary] using h
        obtain ⟨a, b, rfl, hn⟩ := ih hrest
        exact ⟨c :: a, b, rfl, by simp only [width_cons]; omega⟩
  · rintro ⟨a, b, rfl, rfl⟩
    exact isBoundary_width a b

end Text

/-! ## 3. Splices, from the last to the first -/

namespace Splice

/-- The last of some splices in order can be carried out first: those before it do not reach the
part it changes. -/
theorem weave_concat {a m b : Text} {s : Splice} (hstart : s.span.start = Text.width a)
    (hstop : s.span.stop = Text.width a + Text.width m) {splices : List Splice} {cursor : Nat}
    (hcursor : Text.isBoundary cursor a = true)
    (hstops : ∀ t ∈ splices, Text.isBoundary t.span.stop a = true)
    (hstarts : ∀ t ∈ splices, t.span.start ≤ t.span.stop) :
    weave (a ++ (m ++ b)) cursor (splices ++ [s]) = weave (a ++ (s.text ++ b)) cursor splices := by
  induction splices generalizing cursor with
  | nil =>
    obtain ⟨x, y, rfl, rfl⟩ := Text.isBoundary_iff.mp hcursor
    have hafter := Text.after_width (x ++ y ++ m) b
    simp only [Text.width_append, List.append_assoc] at hafter
    simp only [List.nil_append, weave, hstart, hstop, Text.width_append, List.append_assoc,
      Nat.add_assoc, Text.slice_middle, Text.after_width, hafter]
  | cons t rest ih =>
    have ht : Text.isBoundary t.span.stop a = true := hstops t (by simp)
    have hle : t.span.start ≤ Text.width a := by
      obtain ⟨x, y, rfl, hx⟩ := Text.isBoundary_iff.mp ht
      have := hstarts t (by simp)
      simp only [Text.width_append]
      omega
    have hrest := ih ht (fun u hu => hstops u (List.mem_cons_of_mem _ hu))
      (fun u hu => hstarts u (List.mem_cons_of_mem _ hu))
    simp only [List.cons_append, weave, hrest, Text.slice_append_of_le hle]

end Splice

end Crosslink
