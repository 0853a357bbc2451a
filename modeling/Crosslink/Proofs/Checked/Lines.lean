import Crosslink.Proofs.Aliases
import Crosslink.Proofs.Layouts
import Crosslink.Proofs.Checked.Pieces

/-!
# The layout of lines with every access checked

What an edit asks of the line at an offset is found by cutting the text at the offset and counting
the bytes up to a line feed or over blanks. Here each cut is refused where the offset is no place
between two characters, and the byte before a line feed is looked up by its index. At a place
between two characters nothing is refused, and the answers are those of `Line`.

## Main statements

* `Line.Checked.start_eq`, `Line.Checked.stop_eq`, `Line.Checked.next_eq`,
  `Line.Checked.indentation_eq`, `Line.Checked.blankBefore_eq`, `Line.Checked.blankAfter_eq`,
  `Line.Checked.skipBlanks_eq`, `Line.Checked.ending_eq`.
-/

namespace Crosslink

namespace Text

variable {p : Char → Bool} {sep : Char} {t : Text}

theorem all_octets (hp : Blind p) (t : Text) : (octets t).all p = t.all p := by
  induction t with
  | nil => rfl
  | cons c t ih =>
    rw [octets_cons, List.all_append, ih, List.all_cons]
    congr 1
    rcases octetsOf_cases c with ⟨-, ho⟩ | ⟨h, o, os, ho, hos⟩
    · simp [ho]
    · have hsame : ∀ d ∈ octetsOf c, p d = p c := fun d hd => hp d c (hos d (ho ▸ hd)) h
      cases hc : p c with
      | true => exact List.all_eq_true.mpr fun d hd => (hsame d hd).trans hc
      | false =>
        have ho' : p o = false := (hsame o (by simp [ho])).trans hc
        simp [ho, ho']

theorem takeWhile_ne_eq (sep : Char) (t : Text) :
    t.takeWhile (· ≠ sep) = match splitFirst [sep] t with
      | some (l, _) => l
      | none => t := by
  induction t with
  | nil => simp [splitFirst]
  | cons c t ih =>
    rw [splitFirst_singleton_cons]
    by_cases hc : c = sep
    · simp [hc]
    · rw [if_neg hc, List.takeWhile_cons_of_pos (by simpa using hc), ih]
      cases splitFirst [sep] t <;> rfl

theorem mem_of_splitFirst {l r : Text} (h : splitFirst [sep] t = some (l, r)) : sep ∈ t := by
  rw [eq_append_of_splitFirst h]
  simp

theorem not_mem_of_splitFirst (h : splitFirst [sep] t = none) : sep ∉ t := by
  have htake := takeWhile_ne_eq sep t
  rw [h] at htake
  intro hmem
  have hall : ∀ c ∈ t.takeWhile (· ≠ sep), (decide (c ≠ sep)) = true :=
    fun c hc => List.all_eq_true.mp List.all_takeWhile c hc
  simpa using hall sep (htake.symm ▸ hmem)

theorem getLast_octets {c : Char} (hc : c.toNat < 0x80) (t : Text) :
    (octets t).getLast? = some c ↔ t.getLast? = some c := by
  rcases List.eq_nil_or_concat t with rfl | ⟨s, d, rfl⟩
  · simp
  · rw [List.concat_eq_append, octets_append, octets_cons, octets_nil, List.append_nil,
      List.getLast?_concat]
    rcases octetsOf_cases d with ⟨-, ho⟩ | ⟨h, o, os, ho, hos⟩
    · simp [ho]
    · have hlast : ∀ e, (octets s ++ octetsOf d).getLast? = some e → 0x80 ≤ e.toNat := by
        intro e he
        have hmem : (octets s ++ octetsOf d).getLast? = (octetsOf d).getLast? := by
          rw [ho, List.getLast?_append, List.getLast?_cons]
          rfl
        exact hos e (ho ▸ List.mem_of_getLast? (hmem.symm.trans he))
      constructor
      · intro h'
        have := hlast c h'
        omega
      · intro h'
        obtain rfl := Option.some.inj h'
        omega

end Text

namespace Line.Checked

open Text

/-- The offset of the first byte of the line holding `offset`. -/
def start (text : Text) (offset : Nat) : Option Nat := do
  let part ← before? (min offset (width text)) text
  match splitLast ['\n'] part with
  | some (l, _) => some (width l + 1)
  | none => some 0

/-- The offset of the line feed ending the line that holds `offset`, or the end of the text. -/
def stop (text : Text) (offset : Nat) : Option Nat := do
  let offset := min offset (width text)
  let part ← after? offset text
  match splitFirst ['\n'] part with
  | some (l, _) => some (offset + width l)
  | none => some (width text)

/-- The offset just past the line holding `offset`, its line feed included. -/
def next (text : Text) (offset : Nat) : Option Nat := do
  let e ← stop text offset
  some (if e < width text then e + 1 else e)

/-- The spaces and tabs that start the line holding `offset`. -/
def indentation (text : Text) (offset : Nat) : Option Text := do
  let start ← start text offset
  let part ← after? start text
  before? ((octets part).takeWhile isIndent).length part

/-- True when only spaces and tabs stand before `offset` on its line. -/
def blankBefore (text : Text) (offset : Nat) : Option Bool := do
  let start ← start text offset
  let part ← slice? start offset text
  some ((octets part).all isIndent)

/-- True when only spaces, tabs and carriage returns stand after `offset` on its line. -/
def blankAfter (text : Text) (offset : Nat) : Option Bool := do
  let stop ← stop text offset
  let part ← slice? offset stop text
  some ((octets part).all fun b => isIndent b || b = '\r')

/-- The offset of the first byte at or after `offset` that is neither space nor tab. -/
def skipBlanks (text : Text) (offset : Nat) : Option Nat := do
  let offset := min offset (width text)
  let part ← after? offset text
  some (offset + ((octets part).takeWhile isIndent).length)

/-- How the text ends its lines, told by the byte before the first line feed. -/
def ending (text : Text) : Option Text :=
  match splitFirst ['\n'] text with
  | none => some "\n"
  | some (l, _) =>
    if 0 < width l then do
      let b ← (octets text)[width l - 1]?
      some (if b = '\r' then "\r\n" else "\n")
    else some "\n"

variable {source : Text} {n : Nat}

/-- A place between two characters lies in the text, so that it is not taken for its end. -/
theorem min_width (x y : Text) : min (width x) (width (x ++ y)) = width x := by
  rw [width_append]
  omega

theorem start_eq (h : isBoundary n source = true) : start source n = some (Line.start source n) := by
  obtain ⟨x, y, rfl, rfl⟩ := isBoundary_iff.mp h
  rw [start, min_width, before?_width, Option.bind_eq_bind, Option.bind_some, Line.start, head_eq,
    before_width, width_reverse]
  cases hsplit : splitLast ['\n'] x with
  | none =>
    have hline : '\n' ∉ x.reverse := by simpa using splitLast_eq_none hsplit
    have htake : x.reverse.takeWhile (· ≠ '\n') = x.reverse := by
      simpa using takeWhile_append_of_line hline []
    rw [htake, width_reverse, Nat.sub_self]
  | some parts =>
    obtain ⟨l, r⟩ := parts
    obtain ⟨rfl, hr⟩ := splitLast_eq_some hsplit
    have htake : (l ++ '\n' :: r).reverse.takeWhile (· ≠ '\n') = r.reverse := by
      rw [List.reverse_append, List.reverse_cons, List.append_assoc,
        takeWhile_append_of_line (by simpa using hr)]
      simp
    have hfeed : ('\n' : Char).utf8Size = 1 := rfl
    rw [htake, width_reverse, width_append, width_cons, hfeed]
    simp only [Option.some.injEq]
    omega

theorem stop_eq (h : isBoundary n source = true) : stop source n = some (Line.stop source n) := by
  obtain ⟨x, y, rfl, rfl⟩ := isBoundary_iff.mp h
  rw [stop, min_width, after?_width, Option.bind_eq_bind, Option.bind_some, Line.stop_eq,
    takeWhile_ne_eq]
  cases splitFirst ['\n'] y with
  | none => rw [width_append]
  | some parts => rfl

theorem next_eq (h : isBoundary n source = true) : next source n = some (Line.next source n) := by
  rw [next, stop_eq h]
  rfl

/-- The line holding a place, parted there: what stands before the line, its head, its rest, and
what stands after it. -/
theorem exists_line (h : isBoundary n source = true) :
    ∃ v w : Text, source = v ++ (Line.head source n ++ (Line.rest source n ++ w)) ∧
      n = width (v ++ Line.head source n) ∧ Line.start source n = width v ∧
      Line.stop source n = n + width (Line.rest source n) := by
  obtain ⟨x, y, rfl, rfl⟩ := isBoundary_iff.mp h
  obtain ⟨v, hv, hstart, -⟩ := exists_head x y
  have hrest : Line.rest (x ++ y) (width x) = y.takeWhile (· ≠ '\n') := by
    rw [Line.rest, after_width]
  refine ⟨v, y.dropWhile (· ≠ '\n'), ?_, congrArg width hv, hstart, ?_⟩
  · rw [hrest, List.takeWhile_append_dropWhile, ← List.append_assoc, ← hv]
  · rw [Line.stop_eq, hrest]

theorem blankBefore_eq (h : isBoundary n source = true) :
    blankBefore source n = some (Line.blankBefore source n) := by
  obtain ⟨v, w, hsource, hn, hstart, -⟩ := exists_line h
  have hslice : slice? (Line.start source n) n source = some (Line.head source n) := by
    have hs := slice?_width v (Line.head source n) (Line.rest source n ++ w)
    rwa [← hsource, ← width_append, ← hn, ← hstart] at hs
  rw [blankBefore, start_eq h, Option.bind_eq_bind, Option.bind_some, hslice, Option.bind_eq_bind,
    Option.bind_some, all_octets Blind.isIndent]
  rfl

theorem blankAfter_eq (h : isBoundary n source = true) :
    blankAfter source n = some (Line.blankAfter source n) := by
  obtain ⟨v, w, hsource, hn, -, hstop⟩ := exists_line h
  have hslice : slice? n (Line.stop source n) source = some (Line.rest source n) := by
    have hs := slice?_width (v ++ Line.head source n) (Line.rest source n) w
    rwa [List.append_assoc, ← hsource, ← hn, ← hstop] at hs
  rw [blankAfter, stop_eq h, Option.bind_eq_bind, Option.bind_some, hslice, Option.bind_eq_bind,
    Option.bind_some, all_octets (Blind.isIndent.or (Blind.eq (by decide)))]
  rfl

theorem indentation_eq (h : isBoundary n source = true) :
    indentation source n = some (Line.indentation source n) := by
  obtain ⟨v, w, hsource, -, hstart, -⟩ := exists_line h
  rw [indentation, start_eq h, Option.bind_eq_bind, Option.bind_some, Line.indentation, hstart]
  generalize Line.head source n ++ (Line.rest source n ++ w) = t at hsource
  subst hsource
  rw [after?_width, Option.bind_eq_bind, Option.bind_some, after_width,
    takeWhile_octets Blind.isIndent, length_octets]
  conv => lhs; arg 2; rw [← List.takeWhile_append_dropWhile (p := isIndent) (l := t)]
  exact before?_width _ _

theorem skipBlanks_eq (h : isBoundary n source = true) :
    skipBlanks source n = some (Line.skipBlanks source n) := by
  obtain ⟨x, y, rfl, rfl⟩ := isBoundary_iff.mp h
  rw [skipBlanks, min_width, after?_width, Option.bind_eq_bind, Option.bind_some, Line.skipBlanks_eq,
    takeWhile_octets Blind.isIndent, length_octets]

theorem ending_eq (source : Text) : ending source = some (Line.ending source) := by
  rw [ending, Line.ending, takeWhile_ne_eq]
  cases hsplit : splitFirst ['\n'] source with
  | none =>
    have hany : source.any (· = '\n') = false := by
      simpa using fun c hc (he : c = '\n') => not_mem_of_splitFirst hsplit (he ▸ hc)
    rw [hany]
    rfl
  | some parts =>
    obtain ⟨l, r⟩ := parts
    have hany : source.any (· = '\n') = true := by
      simpa using mem_of_splitFirst hsplit
    rw [hany, Bool.true_and]
    dsimp only
    cases l with
    | nil => rfl
    | cons c cs =>
      have hpos : 0 < width (c :: cs) := Nat.lt_of_lt_of_le c.utf8Size_pos (Nat.le_add_right _ _)
      have hbyte : (octets source)[width (c :: cs) - 1]? = (octets (c :: cs)).getLast? := by
        rw [eq_append_of_splitFirst hsplit, octets_append,
          List.getElem?_append_left (by rw [length_octets]; omega), List.getLast?_eq_getElem?,
          length_octets]
      have hreturn := getLast_octets (c := '\r') (by decide) (c :: cs)
      rw [if_pos hpos, hbyte]
      cases hlast : (octets (c :: cs)).getLast? with
      | none =>
        have := congrArg List.length (List.getLast?_eq_none_iff.mp hlast)
        rw [length_octets] at this
        exact absurd this (Nat.pos_iff_ne_zero.mp hpos)
      | some b =>
        rw [hlast, Option.some.injEq] at hreturn
        rw [Option.bind_eq_bind, Option.bind_some]
        by_cases hb : b = '\r'
        · rw [if_pos hb, if_pos (decide_eq_true (hreturn.mp hb))]
        · rw [if_neg hb, if_neg (by simpa using fun he => hb (hreturn.mpr he))]

end Line.Checked

end Crosslink
