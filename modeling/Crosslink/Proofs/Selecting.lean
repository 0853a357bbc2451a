import Crosslink.Edit
import Crosslink.Proofs.Apart

/-!
# Items taken out of a list

The items of a list stand in a text with something between each two of them. When some of them are taken
out, every item that stays keeps what stands behind it, but for the last one that stays, which is followed
by what came after the list. So the text that is left is the list of the items that stay, written the same
way.

* §1 `written`, a list as it is written, and `spansFrom`, where its items stand.
* §2 What the deletions take out, by the item that the list begins with.
* §3 `dropItems_exact`, from the empty list on.
-/

namespace Crosslink.Edit

open Splice

/-! ## §1 Lists in a text -/

/-- An item of a list, and what stands between it and the item after it. -/
structure Item where
  text : Text
  sep : Text
  deriving DecidableEq, Repr

/-- The list as it is written. What stands behind the last item is no part of it. -/
def written : List Item → Text
  | [] => []
  | [i] => i.text
  | i :: j :: is => i.text ++ (i.sep ++ written (j :: is))

/-- Where the items stand when the first of them begins at an offset. -/
def spansFrom (offset : Nat) : List Item → List Span
  | [] => []
  | i :: is => ⟨offset, offset + Text.width i.text⟩ ::
      spansFrom (offset + Text.width i.text + Text.width i.sep) is

/-- The items that are not flagged. -/
def unflagged (items : List (Item × Bool)) : List Item := (items.filter (!·.2)).map Prod.fst

variable {i j : Item} {flag : Bool} {items : List (Item × Bool)} {is : List Item} {source : Text}

theorem written_cons (h : is ≠ []) : written (i :: is) = i.text ++ i.sep ++ written is := by
  cases is with
  | nil => exact absurd rfl h
  | cons j is => exact (List.append_assoc _ _ _).symm

theorem written_map_cons (h : items ≠ []) : written (((i, flag) :: items).map Prod.fst) =
    i.text ++ i.sep ++ written (items.map Prod.fst) :=
  written_cons fun hnil => h (List.map_eq_nil_iff.mp hnil)

/-- The flagged items where they stand. -/
def flaggedFrom (offset : Nat) (items : List (Item × Bool)) : List (Span × Bool) :=
  (spansFrom offset (items.map Prod.fst)).zip (items.map Prod.snd)

theorem flaggedFrom_cons (offset : Nat) : flaggedFrom offset ((i, flag) :: items) =
    (⟨offset, offset + Text.width i.text⟩, flag) ::
      flaggedFrom (offset + Text.width i.text + Text.width i.sep) items := rfl

/-- An item that stays is told by its flag alone. -/
theorem any_flaggedFrom (offset : Nat) :
    (flaggedFrom offset items).any (!·.2) = items.any (!·.2) := by
  induction items generalizing offset with
  | nil => rfl
  | cons x items ih =>
    obtain ⟨i, flag⟩ := x
    rw [flaggedFrom_cons, List.any_cons, List.any_cons, ih]

/-- The last item ends where the list does. -/
theorem getLast_flaggedFrom (offset : Nat) (x : Item × Bool) (items : List (Item × Bool)) :
    ∃ s flag, (flaggedFrom offset (x :: items)).getLast? = some (s, flag) ∧
      s.stop = offset + Text.width (written ((x :: items).map Prod.fst)) := by
  induction items generalizing offset x with
  | nil => exact ⟨_, _, rfl, rfl⟩
  | cons y items ih =>
    obtain ⟨i, flag⟩ := x
    obtain ⟨s, flag', hlast, hstop⟩ := ih (offset + Text.width i.text + Text.width i.sep) y
    refine ⟨s, flag', ?_, ?_⟩
    · rw [flaggedFrom_cons]
      obtain ⟨j, flag''⟩ := y
      rw [flaggedFrom_cons] at hlast ⊢
      rw [List.getLast?_cons_cons]
      exact hlast
    · rw [hstop, written_map_cons (List.cons_ne_nil y items), Text.width_append, Text.width_append]
      omega

theorem unflagged_cons_true : unflagged ((i, true) :: items) = unflagged items := rfl

theorem unflagged_cons_false : unflagged ((i, false) :: items) = i :: unflagged items := rfl

theorem unflagged_ne_nil (h : items.any (!·.2) = true) : unflagged items ≠ [] := by
  obtain ⟨x, hx, hkept⟩ := List.any_eq_true.mp h
  exact List.ne_nil_of_mem (List.mem_map_of_mem (List.mem_filter.mpr ⟨hx, hkept⟩))

theorem unflagged_eq_nil (h : items.any (!·.2) = false) : unflagged items = [] := by
  rw [unflagged, List.filter_eq_nil_iff.mpr fun x hx => ?_]
  · rfl
  · exact List.any_eq_false.mp h x hx

/-! ## §2 The deletions -/

/-- The deletions of an item and what stands behind it, when an item after it stays. -/
theorem dropBeforeKept_of_any (offset : Nat) (h : items.any (!·.2) = true) :
    dropBeforeKept (flaggedFrom offset ((i, flag) :: items)) =
      (if flag then [.delete ⟨offset, offset + Text.width i.text + Text.width i.sep⟩] else []) ++
        dropBeforeKept (flaggedFrom (offset + Text.width i.text + Text.width i.sep) items) := by
  cases items with
  | nil => cases h
  | cons x items =>
    obtain ⟨j, flag'⟩ := x
    have hany := (any_flaggedFrom (offset + Text.width i.text + Text.width i.sep)).trans h
    rw [flaggedFrom_cons, flaggedFrom_cons, dropBeforeKept, ← flaggedFrom_cons, if_pos hany]
    cases flag <;> rfl

/-- The deletion of all that stands behind the last item that stays. -/
theorem dropBeforeKept_of_none (offset : Nat) {x : Item × Bool}
    (h : (x :: items).any (!·.2) = false) :
    dropBeforeKept (flaggedFrom offset ((i, false) :: x :: items)) =
      [.delete ⟨offset + Text.width i.text, offset + Text.width i.text + Text.width i.sep +
        Text.width (written ((x :: items).map Prod.fst))⟩] := by
  have hany := (any_flaggedFrom (offset + Text.width i.text + Text.width i.sep)).trans h
  obtain ⟨s, flag, hlast, hstop⟩ :=
    getLast_flaggedFrom (offset + Text.width i.text + Text.width i.sep) x items
  obtain ⟨j, flag'⟩ := x
  rw [flaggedFrom_cons, flaggedFrom_cons, dropBeforeKept, ← flaggedFrom_cons, if_neg (by simp [hany]),
    if_neg Bool.false_ne_true, hlast]
  simp only [hstop]

/-! ## §3 What is left -/

/-- The splices stand in order from an offset on, and weaving them behind the bytes that are used up
leaves a text. -/
structure Leaves (source : Text) (cursor start : Nat) (splices : List Splice) (out : Text) : Prop where
  rowed : Rowed source start (Text.width source) splices
  weave : weave source cursor splices = out

variable {u v m y out : Text} {cursor start start' offset next : Nat} {splices : List Splice}

theorem leaves_nil (h : source = u ++ v) (hcursor : Text.width u = cursor) (start : Nat) :
    Leaves source cursor start [] v :=
  ⟨Rowed.nil source start _, by rw [Splice.weave, h, ← hcursor, Text.after_width]⟩

theorem Leaves.widen (h : Leaves source cursor start splices out) (hstart : start' ≤ start) :
    Leaves source cursor start' splices out :=
  ⟨h.rowed.widen hstart (Nat.le_refl _), h.weave⟩

/-- What is deleted in front of the other splices is left out, and what stands before it is copied. -/
theorem Leaves.delete (hsource : source = u ++ (v ++ (m ++ y))) (hoffset : Text.width (u ++ v) = offset)
    (hnext : Text.width (u ++ v ++ m) = next) (h : Leaves source next next splices out) :
    Leaves source (Text.width u) offset (.delete ⟨offset, next⟩ :: splices) (v ++ out) := by
  have hle : offset ≤ next := by
    rw [← hoffset, ← hnext, Text.width_append _ m]
    exact Nat.le_add_right _ _
  have hfits : (Splice.delete ⟨offset, next⟩).span.Fits source :=
    ⟨hle, Text.isBoundary_iff.mpr ⟨u ++ v, m ++ y, by simpa using hsource, hoffset.symm⟩,
      Text.isBoundary_iff.mpr ⟨u ++ v ++ m, y, by simpa using hsource, hnext.symm⟩⟩
  refine ⟨(Rowed.single hfits).append h.rowed hle (Nat.le_refl _)
    (Span.le_width_of_isBoundary hfits.stop), ?_⟩
  have hcopied : Text.slice (Text.width u) offset source = v := by
    rw [hsource, ← hoffset, Text.width_append]
    exact Text.slice_middle u v (m ++ y)
  rw [Splice.weave]
  show Text.slice (Text.width u) offset source ++ [] ++ Splice.weave source next splices = v ++ out
  rw [hcopied, h.weave, List.append_nil]

/-- The deletions leave the list of the items that stay. Of the text before the list, `v` is not copied
yet. -/
theorem leaves_dropBeforeKept (hsource : source = u ++ (v ++ (written (items.map Prod.fst) ++ y)))
    (hoffset : Text.width (u ++ v) = offset) (hkept : items.any (!·.2) = true) :
    Leaves source (Text.width u) offset (dropBeforeKept (flaggedFrom offset items))
      (v ++ (written (unflagged items) ++ y)) := by
  induction items generalizing offset u v with
  | nil => cases hkept
  | cons x items ih =>
    obtain ⟨i, flag⟩ := x
    have htext : Text.width (u ++ (v ++ i.text)) = offset + Text.width i.text := by
      rw [← List.append_assoc, Text.width_append, hoffset]
    have hsep : Text.width (u ++ (v ++ i.text ++ i.sep)) =
        offset + Text.width i.text + Text.width i.sep := by
      rw [← List.append_assoc, Text.width_append, htext]
    cases hrest : items.any (!·.2) with
    | true =>
      have hne : items ≠ [] := fun hnil => by
        rw [hnil] at hrest
        cases hrest
      rw [written_map_cons hne] at hsource
      rw [dropBeforeKept_of_any offset hrest]
      cases flag with
      | true =>
        -- The item goes up to the next one, so nothing in front of that one is left to copy.
        have hlater := ih (u := u ++ (v ++ i.text ++ i.sep)) (v := []) (by simpa using hsource)
          (by simpa using hsep) hrest
        rw [hsep] at hlater
        rw [unflagged_cons_true]
        exact hlater.delete (m := i.text ++ i.sep) (by simpa using hsource) hoffset (by simpa using hsep)
      | false =>
        have hlater := ih (u := u) (v := v ++ i.text ++ i.sep) (by simpa using hsource) hsep hrest
        rw [unflagged_cons_false, written_cons (unflagged_ne_nil hrest)]
        have hwiden : offset ≤ offset + Text.width i.text + Text.width i.sep := by omega
        simpa using hlater.widen hwiden
    | false =>
      obtain rfl : flag = false := by simpa [hrest] using hkept
      rw [unflagged_cons_false, unflagged_eq_nil hrest]
      cases items with
      | nil => exact leaves_nil hsource rfl _
      | cons x items =>
        rw [written_map_cons (List.cons_ne_nil _ _)] at hsource
        rw [dropBeforeKept_of_none offset hrest]
        generalize written ((x :: items).map Prod.fst) = w at hsource ⊢
        have hstop : Text.width (u ++ (v ++ i.text) ++ (i.sep ++ w)) =
            offset + Text.width i.text + Text.width i.sep + Text.width w := by
          rw [← hsep, ← Text.width_append]
          simp
        have hlast := leaves_nil (v := y) (by simpa using hsource) hstop
        have hdelete := ((hlast _).delete (by simpa using hsource) htext hstop).widen
          (Nat.le_add_right offset _)
        rwa [List.append_assoc] at hdelete

/-- Items that are taken out of a list leave the list of the others: each of them keeps what stands
behind it, and the last one is followed by what came after the list. -/
theorem dropItems_exact (pre post : Text) (items : List Item) (flags : List Bool)
    (hlength : flags.length = items.length) (hkept : false ∈ flags) :
    apply (pre ++ (written items ++ post)) (dropItems (spansFrom (Text.width pre) items) flags) =
      .ok (pre ++ (written (unflagged (items.zip flags)) ++ post)) := by
  have hfst : (items.zip flags).map Prod.fst = items := List.map_fst_zip (by omega)
  have hsnd : (items.zip flags).map Prod.snd = flags := List.map_snd_zip (by omega)
  have hany : (items.zip flags).any (!·.2) = true := by
    rw [← hsnd] at hkept
    obtain ⟨x, hx, hflag⟩ := List.mem_map.mp hkept
    exact List.any_eq_true.mpr ⟨x, hx, by rw [hflag]; rfl⟩
  have hspans : dropItems (spansFrom (Text.width pre) items) flags =
      dropBeforeKept (flaggedFrom (Text.width pre) (items.zip flags)) := by
    rw [dropItems, flaggedFrom, hfst, hsnd]
  have hleaves : Leaves (pre ++ (written items ++ post)) 0 (Text.width pre)
      (dropBeforeKept (flaggedFrom (Text.width pre) (items.zip flags)))
      (pre ++ (written (unflagged (items.zip flags)) ++ post)) :=
    leaves_dropBeforeKept (u := []) (by rw [hfst]; rfl) rfl hany
  rw [hspans, hleaves.rowed.apply_eq]
  exact congrArg Except.ok hleaves.weave

/-- The items of a list over several lines, of which the one in the middle stays. -/
theorem dropItems_exact_lines :
    apply "#[\n    A,\n    B,\n    C,\n]"
        (dropItems [⟨7, 8⟩, ⟨14, 15⟩, ⟨21, 22⟩] [true, false, true]) = .ok "#[\n    B,\n]" :=
  dropItems_exact "#[\n    " ",\n]" [⟨"A", ",\n    "⟩, ⟨"B", ",\n    "⟩, ⟨"C", []⟩]
    [true, false, true] rfl (by decide)

end Crosslink.Edit
