import Mathlib.Data.List.Infix
import Mathlib.Data.List.TakeWhile
import Crosslink.Proofs.Cutting
import Crosslink.Proofs.Naming

/-!
# Names that read back

A target is written as `Class::method` and read again, and a test is named by a reference that is made
from its identifier. Both readings split at the first `::`, drop what is taken for decoration (blanks
around a target, a backslash in front of a class) and so lose a name that held such a thing by itself.
This module tells exactly which names come through.

The two halves of a name are not split independently: a class that ends with a colon shifts the first
`::` to the left, so that it is `::` in `Class:` and not in `Class` that counts.

* §1 `splitFirst_eq_some_iff`, the first occurrence of a separator.
* §2 `trim_eq_self_iff`, the texts that trimming leaves alone.
* §3 `Target.Readable`, the targets whose canonical form is read as they are.
* §4 The tests that their own references name.

## Main statements

* `Target.canonical_exact`: which targets read back, and what is read at all.
* `BackReference.names_own_exact`: which tests their own references name, and what slugs are.
-/

namespace Crosslink

/-! ## §1 The first separator -/

/-- A text is split where the separator stands first: it does not occur before, not even with all but
its last character in common with the occurrence split at. -/
theorem Text.splitFirst_eq_some_iff {sep t l r : Text} (hsep : sep ≠ []) :
    splitFirst sep t = some (l, r) ↔ t = l ++ (sep ++ r) ∧ ¬ sep <:+: (l ++ sep).dropLast := by
  have hshort : ∀ u : Text, (u ++ sep).dropLast = u ++ sep.dropLast :=
    fun u => List.dropLast_append_of_ne_nil hsep
  have hlength : sep.dropLast.length < sep.length := by
    have := List.length_pos_iff.mpr hsep
    rw [List.length_dropLast]
    omega
  have hbefore : ∀ u r : Text, (u ++ sep).dropLast <+: u ++ (sep ++ r) := fun u r => by
    rw [hshort, ← List.append_assoc]
    exact ((List.prefix_append_right_inj _).mpr (List.dropLast_prefix sep)).trans
      (List.prefix_append _ _)
  induction t generalizing l with
  | nil => simp [splitFirst, hsep]
  | cons c cs ih =>
    rw [splitFirst]
    split
    · rename_i hbegins
      obtain ⟨rest, hrest⟩ := List.isPrefixOf_iff_prefix.mp hbegins
      rw [← hrest, List.drop_left]
      constructor
      · intro h
        obtain ⟨rfl, rfl⟩ := Prod.mk.inj (Option.some.inj h)
        refine ⟨rfl, fun hinfix => ?_⟩
        rw [hshort] at hinfix
        exact absurd hinfix.length_le (by simpa using hlength)
      · rintro ⟨heq, hfirst⟩
        cases l with
        | nil => rw [List.append_cancel_left heq]
        | cons d l =>
          -- the occurrence at the front is before the other one
          refine absurd (List.IsPrefix.isInfix ?_) hfirst
          have hother : (d :: l ++ sep).dropLast <+: sep ++ rest := by
            rw [heq]
            exact hbefore _ _
          refine List.prefix_of_prefix_length_le (List.prefix_append sep rest) hother ?_
          rw [List.length_dropLast, List.length_append, List.length_cons]
          omega
    · rename_i hno
      constructor
      · intro h
        obtain ⟨⟨l', r'⟩, hsplit, heq⟩ := Option.map_eq_some_iff.mp h
        obtain ⟨rfl, rfl⟩ := Prod.mk.inj heq
        obtain ⟨rfl, hfirst⟩ := ih.mp hsplit
        refine ⟨rfl, ?_⟩
        rw [hshort, List.cons_append, List.infix_cons_iff, ← hshort]
        rintro (hbegins | hinfix)
        · exact hno (List.isPrefixOf_iff_prefix.mpr
            (hbegins.trans ((List.prefix_cons_inj c).mpr (hbefore l' r'))))
        · exact hfirst hinfix
      · rintro ⟨heq, hfirst⟩
        cases l with
        | nil => exact absurd (List.isPrefixOf_iff_prefix.mpr ⟨r, heq.symm⟩) hno
        | cons d l =>
          obtain ⟨rfl, rfl⟩ := List.cons.inj heq
          rw [ih.mpr ⟨rfl, fun hinfix => hfirst ?_⟩, Option.map_some]
          rw [hshort, List.cons_append, ← hshort]
          exact hinfix.trans (List.suffix_cons _ _).isInfix

theorem Text.splitFirst_eq_none_iff {sep t : Text} : splitFirst sep t = none ↔ ¬ sep <:+: t := by
  rw [← Source.contains_iff, contains, Bool.not_eq_true, Option.isSome_eq_false_iff,
    Option.isNone_iff_eq_none]

/-- Where the class or the container ends: before the first `::`. -/
theorem splitFirst_memberSeparator_iff {t l r : Text} :
    Text.splitFirst memberSeparator t = some (l, r) ↔
      t = l ++ (memberSeparator ++ r) ∧ ¬ memberSeparator <:+: l ++ [':'] := by
  rw [Text.splitFirst_eq_some_iff (by decide), List.dropLast_append_of_ne_nil (by decide)]
  rfl

/-- The first `::` is the one after a class exactly if the class has none and ends with no colon. -/
theorem infix_memberSeparator_append_colon {l : Text} :
    memberSeparator <:+: l ++ [':'] ↔ memberSeparator <:+: l ∨ l.getLast? = some ':' := by
  have hlast : memberSeparator <:+ l ++ [':'] ↔ l.getLast? = some ':' := by
    constructor
    · rintro ⟨u, hu⟩
      have hl : (u ++ [':']) ++ [':'] = l ++ [':'] := by
        rw [List.append_assoc]
        exact hu
      rw [← List.append_cancel_right hl, List.getLast?_concat]
    · intro h
      exact ⟨l.dropLast, by rw [← List.dropLast_append_getLast? _ h]; simp [memberSeparator]⟩
  rw [List.infix_concat_iff, hlast, or_comm]

/-! ## §2 Trimmed texts -/

theorem Text.length_trim_le (p : Char → Bool) (t : Text) : (trim p t).length ≤ t.length := by
  have hstart := (List.dropWhile_suffix p (l := t)).length_le
  have hend := (List.dropWhile_suffix p (l := (t.dropWhile p).reverse)).length_le
  rw [trim, trimEnd, List.length_reverse]
  rw [List.length_reverse] at hend
  omega

theorem dropWhile_eq_self_iff_head {p : Char → Bool} {t : Text} :
    t.dropWhile p = t ↔ ∀ c ∈ t.head?, p c = false := by
  cases t <;> simp [List.dropWhile_eq_self_iff]

/-- Trimming leaves alone the texts that neither begin nor end with what is trimmed. -/
theorem Text.trim_eq_self_iff {p : Char → Bool} {t : Text} :
    trim p t = t ↔ (∀ c ∈ t.head?, p c = false) ∧ ∀ c ∈ t.getLast?, p c = false := by
  have hend : trimEnd p t = t ↔ ∀ c ∈ t.getLast?, p c = false := by
    rw [trimEnd, List.reverse_eq_iff, dropWhile_eq_self_iff_head, List.head?_reverse]
  rw [← dropWhile_eq_self_iff_head, ← hend]
  constructor
  · intro h
    have hstart : t.dropWhile p = t := by
      refine (List.dropWhile_suffix p).eq_of_length (Nat.le_antisymm ?_ ?_)
      · exact (List.dropWhile_suffix p).length_le
      · have := (List.dropWhile_suffix p (l := (t.dropWhile p).reverse)).length_le
        rw [trim, trimEnd] at h
        have hlength := congrArg List.length h
        rw [List.length_reverse] at hlength this
        omega
    exact ⟨hstart, by rwa [trim, hstart] at h⟩
  · rintro ⟨hstart, hend⟩
    rw [trim, hstart, hend]

/-! ## §3 Targets -/

namespace Target

theorem canonical_of_none {t : Target} (h : t.method = none) : t.canonical = t.className := by
  rw [canonical, h]

theorem canonical_of_some {t : Target} {m : Text} (h : t.method = some m) :
    t.canonical = t.className ++ (memberSeparator ++ m) := by
  simp [canonical, h]

/-- What is read of a text, told by where its trimmed part is split. -/
theorem parse_eq_ok_iff {s : Text} {t : Target} :
    parse s = .ok t ↔ t.className ≠ [] ∧
      match t.method with
      | none => Text.splitFirst memberSeparator (Text.trim isBlank s) = none ∧
          t.className = unrooted (Text.trim isBlank s)
      | some m => m ≠ [] ∧ Text.contains memberSeparator m = false ∧
          ∃ c, Text.splitFirst memberSeparator (Text.trim isBlank s) = some (c, m) ∧
            t.className = unrooted c := by
  obtain ⟨className, method⟩ := t
  simp only [parse]
  cases hsplit : Text.splitFirst memberSeparator (Text.trim isBlank s) with
  | none =>
    cases method <;> grind
  | some parts =>
    obtain ⟨c, m⟩ := parts
    cases method <;> grind

/-- What trimming and the one backslash leave of a text is the canonical form of the target read. -/
theorem canonical_of_parse {s : Text} {t : Target} (h : parse s = .ok t) :
    t.canonical = unrooted (Text.trim isBlank s) := by
  obtain ⟨hclass, h⟩ := parse_eq_ok_iff.mp h
  cases hmethod : t.method with
  | none =>
    rw [hmethod] at h
    rw [canonical_of_none hmethod]
    exact h.2
  | some m =>
    rw [hmethod] at h
    obtain ⟨-, -, c, hsplit, hc⟩ := h
    rw [canonical_of_some hmethod, Text.eq_append_of_splitFirst hsplit]
    -- the class is not empty, so that a backslash before it is in front of the whole
    cases c with
    | nil => exact absurd hc hclass
    | cons d c =>
      rw [hc]
      simp only [unrooted, Text.dropOne, List.cons_append]
      split <;> simp

/-- A target whose canonical form says which target it is. -/
structure Readable (t : Target) : Prop where
  nonempty : t.className ≠ []
  unrooted : t.className.head? ≠ some '\\'
  flush : ∀ c ∈ t.className.head?, isBlank c = false
  undivided : ¬ memberSeparator <:+: t.className
  /-- A class that stands alone is trimmed at its end. -/
  whole : t.method = none → ∀ c ∈ t.className.getLast?, isBlank c = false
  /-- Between class and method the separator stands out, and the method is trimmed at its end. -/
  member : ∀ m, t.method = some m → t.className.getLast? ≠ some ':' ∧ m ≠ [] ∧
    ¬ memberSeparator <:+: m ∧ ∀ c ∈ m.getLast?, isBlank c = false

variable {t : Target}

/-- Trimming leaves the canonical form of a readable target alone. -/
theorem Readable.trim_canonical (h : t.Readable) :
    Text.trim isBlank t.canonical = t.canonical := by
  obtain ⟨c, cs, hc⟩ := List.exists_cons_of_ne_nil h.nonempty
  have hflush : isBlank c = false := h.flush c (by rw [hc]; rfl)
  rw [Text.trim_eq_self_iff]
  cases hmethod : t.method with
  | none =>
    rw [canonical_of_none hmethod]
    exact ⟨h.flush, h.whole hmethod⟩
  | some m =>
    obtain ⟨-, hm, -, hend⟩ := h.member m hmethod
    rw [canonical_of_some hmethod]
    refine ⟨by simpa [hc] using hflush, ?_⟩
    rwa [← List.append_assoc, List.getLast?_append_of_ne_nil _ hm]

theorem unrooted_of_head {className : Text} (h : className.head? ≠ some '\\') :
    Crosslink.unrooted className = className := by
  obtain ⟨hsame, -⟩ | hrooted := unrooted_cases className
  · exact hsame
  · exact absurd (congrArg List.head? hrooted) h

theorem Readable.parse_canonical (h : t.Readable) : parse t.canonical = .ok t := by
  refine parse_eq_ok_iff.mpr ⟨h.nonempty, ?_⟩
  rw [h.trim_canonical]
  cases hmethod : t.method with
  | none =>
    rw [canonical_of_none hmethod]
    exact ⟨Text.splitFirst_eq_none_iff.mpr h.undivided, (unrooted_of_head h.unrooted).symm⟩
  | some m =>
    obtain ⟨hcolon, hm, hundivided, -⟩ := h.member m hmethod
    have hfirst : ¬ memberSeparator <:+: t.className ++ [':'] := fun hinfix =>
      (infix_memberSeparator_append_colon.mp hinfix).elim h.undivided hcolon
    refine ⟨hm, ?_, t.className, ?_, (unrooted_of_head h.unrooted).symm⟩
    · rwa [← Source.contains_iff, Bool.not_eq_true] at hundivided
    · exact splitFirst_memberSeparator_iff.mpr ⟨canonical_of_some hmethod, hfirst⟩

/-- A canonical form that is read as its target lost nothing, neither to trimming nor to the
backslash. -/
theorem kept_of_parse_canonical (h : parse t.canonical = .ok t) :
    Text.trim isBlank t.canonical = t.canonical ∧ t.canonical.head? ≠ some '\\' := by
  have hcanonical := canonical_of_parse h
  have htrim := Text.length_trim_le isBlank t.canonical
  obtain ⟨hsame, hhead⟩ | hrooted := unrooted_cases (Text.trim isBlank t.canonical)
  · rw [hsame] at hcanonical
    exact ⟨hcanonical.symm, by rwa [← hcanonical] at hhead⟩
  · have hlength := congrArg List.length hrooted
    rw [List.length_cons, ← hcanonical] at hlength
    omega

theorem readable_of_parse_canonical (h : parse t.canonical = .ok t) : t.Readable := by
  obtain ⟨htrim, hhead⟩ := kept_of_parse_canonical h
  obtain ⟨hflush, hend⟩ := Text.trim_eq_self_iff.mp htrim
  obtain ⟨hclass, h⟩ := parse_eq_ok_iff.mp h
  obtain ⟨d, ds, hd⟩ := List.exists_cons_of_ne_nil hclass
  have hstart : t.canonical.head? = t.className.head? := by
    rw [canonical]
    cases t.method <;> simp [hd]
  rw [htrim] at h
  rw [hstart] at hhead hflush
  cases hmethod : t.method with
  | none =>
    rw [hmethod, canonical_of_none hmethod] at h
    rw [canonical_of_none hmethod] at hend
    exact ⟨hclass, hhead, hflush, Text.splitFirst_eq_none_iff.mp h.1, fun _ => hend,
      fun m hm => by simp [hmethod] at hm⟩
  | some m =>
    rw [hmethod] at h
    obtain ⟨hm, hundivided, c, hsplit, hc⟩ := h
    -- what stands before the separator is the class itself
    have hsame : c = t.className := by
      have hlength := congrArg List.length (Text.eq_append_of_splitFirst hsplit)
      rw [canonical_of_some hmethod] at hlength
      obtain ⟨hsame, -⟩ | hrooted := unrooted_cases c
      · rw [hc, hsame]
      · have hlonger := congrArg List.length hrooted
        rw [List.length_cons, ← hc] at hlonger
        simp only [List.length_append] at hlength
        omega
    subst hsame
    obtain ⟨-, hfirst⟩ := splitFirst_memberSeparator_iff.mp hsplit
    rw [infix_memberSeparator_append_colon, not_or] at hfirst
    rw [canonical_of_some hmethod, ← List.append_assoc, List.getLast?_append_of_ne_nil _ hm] at hend
    rw [← Bool.not_eq_true, Source.contains_iff] at hundivided
    refine ⟨hclass, hhead, hflush, hfirst.1, fun hnone => by simp [hmethod] at hnone, ?_⟩
    intro m' hm'
    obtain rfl : m = m' := Option.some.inj (hmethod.symm.trans hm')
    exact ⟨hfirst.2, hm, hundivided, hend⟩

/-- The canonical form of a target is read as that target exactly if the target is readable. Of any
text that is read, the canonical form of the result is that text, trimmed and without one backslash in
front. -/
theorem canonical_exact :
    (∀ t : Target, parse t.canonical = .ok t ↔ t.Readable) ∧
      ∀ (s : Text) (t : Target), parse s = .ok t → t.canonical = unrooted (Text.trim isBlank s) :=
  ⟨fun _ => ⟨readable_of_parse_canonical, Readable.parse_canonical⟩, fun _ _ => canonical_of_parse⟩

/-- A target written by hand, with blanks around it and a backslash in front of its class. -/
theorem canonical_exact_rooted :
    parse " \\App\\Cart::total " = .ok ⟨"App\\Cart", some "total".toList⟩ ∧
      (⟨"App\\Cart", some "total".toList⟩ : Target).canonical =
        unrooted (Text.trim isBlank " \\App\\Cart::total ") :=
  have h : parse " \\App\\Cart::total " = .ok ⟨"App\\Cart", some "total".toList⟩ := by
    decide +kernel
  ⟨h, canonical_exact.2 _ _ h⟩

end Target

/-! ## §4 Tests that their own references name -/

/-- Where a nameable identifier is split, and what it is made of there. -/
theorem nameable_iff_exists {identifier : Text} :
    Nameable identifier ↔ ∃ container member,
      identifier = container ++ (memberSeparator ++ member) ∧
      ¬ memberSeparator <:+: container ++ [':'] ∧ identifier.head? ≠ some '\\' ∧
      ∀ c ∈ member, isSlugChar c = true := by
  have hhead : ∀ container member : Text,
      (container ++ (memberSeparator ++ member)).head? = some '\\' ↔
        container.head? = some '\\' := by
    rintro (_ | ⟨c, container⟩) member <;> simp [memberSeparator]
  constructor
  · rintro ⟨hseparated, hunrooted, hslugged⟩
    obtain ⟨⟨container, member⟩, hsplit⟩ := Option.isSome_iff_exists.mp hseparated
    rw [splitIdentifier_of_some hsplit] at hunrooted hslugged
    obtain ⟨rfl, hfirst⟩ := splitFirst_memberSeparator_iff.mp hsplit
    exact ⟨container, member, rfl, hfirst, fun h => hunrooted ((hhead _ _).mp h), hslugged⟩
  · rintro ⟨container, member, rfl, hfirst, hunrooted, hslugged⟩
    have hsplit : Text.splitFirst memberSeparator (container ++ (memberSeparator ++ member)) =
        some (container, member) := splitFirst_memberSeparator_iff.mpr ⟨rfl, hfirst⟩
    have hparts := splitIdentifier_of_some hsplit
    refine ⟨by rw [hsplit]; rfl, ?_, by rwa [hparts]⟩
    rw [hparts]
    exact fun h => hunrooted ((hhead _ _).mpr h)

/-- The reference made for a test names that test exactly if its identifier has a `::`, begins with no
backslash and has nothing but ASCII letters, digits and underscores after its first `::`. For slugs are
made of these characters, and the texts made of them are their own slugs. -/
theorem BackReference.names_own_exact :
    (∀ identifier : Text, (ofIdentifier identifier).names identifier = true ↔
      ∃ container member, identifier = container ++ (memberSeparator ++ member) ∧
        ¬ memberSeparator <:+: container ++ [':'] ∧ identifier.head? ≠ some '\\' ∧
        ∀ c ∈ member, isSlugChar c = true) ∧
      ∀ text : Text, (∀ c ∈ slug text, isSlugChar c = true) ∧ slug (slug text) = slug text ∧
        (slug text = text ↔ ∀ c ∈ text, isSlugChar c = true) := by
  have hslug : ∀ text : Text, ∀ c ∈ slug text, isSlugChar c = true :=
    fun _ _ => isSlugChar_of_mem_slugFrom
  exact ⟨fun _ => nameable_iff.symm.trans nameable_iff_exists,
    fun text => ⟨hslug text, slug_eq_self_iff.mpr (hslug text), slug_eq_self_iff⟩⟩

end Crosslink
