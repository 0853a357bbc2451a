import Crosslink.Proofs.Apart
import Crosslink.Proofs.Checked.Octets

/-!
# Access that may be refused

The part of a text between two offsets exists only when the offsets lie in the text, each between
two characters, and are not the wrong way round. Elsewhere in this library such a part is cut out
without a look at that, which gives some text in any case. Here it is refused, so that a reader who
asks for a part that does not exist has no result at all.

* §1 Parts of a text, and its bytes from an offset on.
* §2 What they are at the place after a number of characters, where nothing is refused.
* §3 Parts that a span covers.

## Main statements

* `Text.after?_place`, `Text.bytesFrom_place`: at a place between two characters a text goes on with
  the characters after it.
* `Span.Fits.slice?_eq`: what a span covers that fits.
-/

namespace Crosslink

namespace Text

/-! ## 1. Parts that may not exist -/

/-- The text from an offset on, refused where no character begins or the text ends. -/
def after? (start : Nat) (text : Text) : Option Text :=
  if isBoundary start text then some (after start text) else none

/-- The text up to an offset, refused likewise. -/
def before? (stop : Nat) (text : Text) : Option Text :=
  if isBoundary stop text then some (before stop text) else none

/-- The text between two offsets, refused when they are the wrong way round or one of them is no
place between two characters. -/
def slice? (start stop : Nat) (text : Text) : Option Text :=
  if start ≤ stop && isBoundary start text && isBoundary stop text then
    some (slice start stop text)
  else none

/-- The bytes from an offset on; there are none past the end. -/
def bytesFrom (text : Text) (start : Nat) : List Char := (octets text).drop start

/-! ## 2. Places between characters -/

variable {pre t : Text} {n m : Nat}

theorem width_take_add (t : Text) (n m : Nat) :
    width (t.take (n + m)) = width (t.take n) + width ((t.drop n).take m) := by
  rw [List.take_add, width_append]

/-- The place after `n` characters of `t` parts the text there. -/
theorem exists_place (pre t : Text) (n : Nat) :
    pre ++ t = (pre ++ t.take n) ++ t.drop n ∧
      width pre + width (t.take n) = width (pre ++ t.take n) :=
  ⟨by rw [List.append_assoc, List.take_append_drop], (width_append _ _).symm⟩

theorem after?_place (pre t : Text) (n : Nat) :
    after? (width pre + width (t.take n)) (pre ++ t) = some (t.drop n) := by
  obtain ⟨htext, hplace⟩ := exists_place pre t n
  rw [htext, hplace, after?, if_pos (isBoundary_width _ _), after_width]

theorem bytesFrom_place (pre t : Text) (n : Nat) :
    bytesFrom (pre ++ t) (width pre + width (t.take n)) = octets (t.drop n) := by
  obtain ⟨htext, hplace⟩ := exists_place pre t n
  rw [htext, hplace, bytesFrom, drop_octets]

theorem slice?_place (pre t : Text) (n m : Nat) :
    slice? (width pre + width (t.take n)) (width pre + width (t.take (n + m))) (pre ++ t) =
      some ((t.drop n).take m) := by
  obtain ⟨htext, hplace⟩ := exists_place pre t n
  obtain ⟨htext', hplace'⟩ := exists_place pre t (n + m)
  have hstart : isBoundary (width pre + width (t.take n)) (pre ++ t) = true := by
    rw [htext, hplace]
    exact isBoundary_width _ _
  have hstop : isBoundary (width pre + width (t.take (n + m))) (pre ++ t) = true := by
    rw [htext', hplace']
    exact isBoundary_width _ _
  have hle : width pre + width (t.take n) ≤ width pre + width (t.take (n + m)) := by
    rw [width_take_add]
    omega
  have hslice : slice (width pre + width (t.take n)) (width pre + width (t.take (n + m))) (pre ++ t) =
      (t.drop n).take m := by
    have h := slice_middle (pre ++ t.take n) ((t.drop n).take m) ((t.drop n).drop m)
    rw [List.take_append_drop, ← htext, ← hplace, Nat.add_assoc, ← width_take_add] at h
    exact h
  simp only [slice?, hle, hstart, hstop, hslice, decide_true, Bool.and_self, if_true]

theorem after?_width (pre t : Text) : after? (width pre) (pre ++ t) = some t := by
  simpa using after?_place pre t 0

theorem bytesFrom_width (pre t : Text) : bytesFrom (pre ++ t) (width pre) = octets t := by
  simpa using bytesFrom_place pre t 0

theorem after?_append (pre l r : Text) :
    after? (width pre + width l) (pre ++ (l ++ r)) = some r := by
  rw [← List.append_assoc, ← width_append, after?_width]

theorem bytesFrom_append (pre l r : Text) :
    bytesFrom (pre ++ (l ++ r)) (width pre + width l) = octets r := by
  rw [← List.append_assoc, ← width_append, bytesFrom_width]

theorem before?_width (pre t : Text) : before? (width pre) (pre ++ t) = some pre := by
  rw [before?, if_pos (isBoundary_width _ _), before_width]

theorem slice?_width (a m b : Text) :
    slice? (width a) (width a + width m) (a ++ (m ++ b)) = some m := by
  have hstop : isBoundary (width a + width m) (a ++ (m ++ b)) = true := by
    rw [← List.append_assoc, ← width_append]
    exact isBoundary_width _ _
  simp only [slice?, Nat.le_add_right, isBoundary_width, hstop, slice_middle, decide_true,
    Bool.and_self, if_true]

/-- An ASCII character counts one byte. -/
theorem width_take_succ {c : Char} (hc : c.toNat < 0x80) (h : (t.drop n).head? = some c) :
    width (t.take (n + 1)) = width (t.take n) + 1 := by
  obtain ⟨r, hr⟩ := List.head?_eq_some_iff.mp h
  rw [width_take_add, hr]
  simp [utf8Size_ascii hc]

end Text

/-! ## 3. What a span covers -/

namespace Span

/-- The text a span covers, refused when there is none. -/
def slice? (s : Span) (text : Text) : Option Text := Text.slice? s.start s.stop text

variable {source : Text} {s : Span}

theorem Fits.slice?_eq (h : s.Fits source) : s.slice? source = some (s.slice source) := by
  simp only [slice?, Text.slice?, h.le, h.start, h.stop, decide_true, Bool.and_self, if_true]
  rfl

theorem between?_of_le {start stop : Nat} (h : start ≤ stop) :
    between? start stop = some ⟨start, stop⟩ :=
  if_pos h

end Span

end Crosslink
