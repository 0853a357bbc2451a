import Mathlib.Data.List.Forall2
import Crosslink.Proofs.Findings

/-!
# Plans that settle a report

A plan has one action for every finding that can be settled, in the order of the report. This
module says which action that is, what all of them together add to a test or a method, and what they
remove.

## Main statements

* `forall₂_settles`: the actions of a plan, finding by finding.
* `mem_added`, `mem_references`, `any_removes`: what a plan adds and removes.
-/

namespace Crosslink

open Validation

/-- The action that settles a finding under a policy. -/
inductive Settles (r : Registry) (p : Production.Index) (options : Policy) :
    Finding → Action → Prop
  /-- A back-reference that is missing is added. -/
  | addsReference {f : Finding} {target : Target} {entry : Production.Entry}
      (kind : f.kind = .missingTestedBy) (about : f.target = some target)
      (found : p.method? target = some entry) (keeps : options.prune = false) :
      Settles r p options f (.addBackReference entry.file target (.ofIdentifier f.test))
  /-- A link that no back-reference answers is removed from the first record of its test. -/
  | removesLink {f : Finding} {target : Target} {record : RegisteredTest}
      (kind : f.kind = .missingTestedBy) (about : f.target = some target)
      (found : r.get? f.test = some record) (prunes : options.prune = true) :
      Settles r p options f (.removeTestLink record f.test target)
  /-- A link that is missing is added to the first record of its test. -/
  | addsLink {f : Finding} {target : Target} {record : RegisteredTest}
      (kind : f.kind = .missingTestLink) (about : f.target = some target)
      (found : r.get? f.test = some record) :
      Settles r p options f (.addTestLink record f.test target !options.linkOnly)

variable {r : Registry} {p : Production.Index} {options : Policy}

/-- A finding that can be settled is about a target, and its test is registered. -/
theorem reports_of_mem_validate {f : Finding} (hf : f ∈ validate r p)
    (hkind : f.kind.canBeSettled = true) :
    ∃ target, f.target = some target ∧ Reports r p f.kind f.test target ∧
      f.test ∈ r.identifiers ∧ ∃ entry, p.method? target = some entry := by
  rcases mem_findings.mp (mem_of_mem_report hf) with ⟨test, link, hlink, hf'⟩ |
    ⟨method, entry, hentry, reference, -, hf'⟩ | ⟨test, count, -, rfl⟩
  · obtain ⟨rfl, -, htarget⟩ := checkLink_place hf'
    refine ⟨link.target, htarget, ⟨f, hf, rfl, rfl, htarget⟩,
      Registry.mem_identifiers_of_mem_linksOf hlink, ?_⟩
    cases hm : p.method? link.target with
    | none => simp [kind_of_checkLink hm hf', Finding.Kind.canBeSettled] at hkind
    | some entry => exact ⟨entry, rfl⟩
  · rw [checkBackReference_eq] at hf'
    split at hf'
    · simp [List.mem_singleton.mp hf', Finding.Kind.canBeSettled] at hkind
    · split at hf'
      · simp at hf'
      · obtain ⟨record, hrecord, rfl⟩ := List.mem_map.mp hf'
        obtain ⟨hmem, -⟩ := List.mem_filter.mp (List.mem_filter.mp hrecord).1
        exact ⟨method, rfl, ⟨_, hf, rfl, rfl, rfl⟩,
          Registry.mem_identifiers.mpr ⟨record, hmem, rfl⟩, entry, hentry⟩
  · simp [duplicate, Finding.Kind.canBeSettled] at hkind

/-- Every finding that can be settled is. -/
theorem exists_settle (options : Policy) {f : Finding} (hf : f ∈ validate r p)
    (hkind : f.kind.canBeSettled = true) :
    ∃ a, Plan.settle r p options f = some a ∧ Settles r p options f a := by
  obtain ⟨target, htarget, -, htest, entry, hentry⟩ := reports_of_mem_validate hf hkind
  obtain ⟨record, hrecord, -⟩ := Registry.exists_get?_of_mem_identifiers htest
  cases hk : f.kind with
  | missingTestedBy =>
    cases hprune : options.prune with
    | true =>
      exact ⟨_, by simp [Plan.settle, htarget, hrecord, hk, hprune],
        .removesLink hk htarget hrecord hprune⟩
    | false =>
      exact ⟨_, by simp [Plan.settle, htarget, hrecord, hk, hprune, hentry],
        .addsReference hk htarget hentry hprune⟩
  | missingTestLink =>
    exact ⟨_, by simp [Plan.settle, htarget, hrecord, hk], .addsLink hk htarget hrecord⟩
  | danglingLink => simp [hk, Finding.Kind.canBeSettled] at hkind
  | orphanedBackReference => simp [hk, Finding.Kind.canBeSettled] at hkind
  | duplicateTest => simp [hk, Finding.Kind.canBeSettled] at hkind

/-- Other findings are left alone. -/
theorem settle_eq_none {f : Finding} (hkind : f.kind.canBeSettled = false) :
    Plan.settle r p options f = none := by
  cases f with
  | mk kind target test file message =>
    cases target with
    | none => rfl
    | some target =>
      cases hget : r.get? test with
      | none => simp [Plan.settle, hget]
      | some record => cases kind <;> simp_all [Plan.settle, Finding.Kind.canBeSettled]

/-- What a partial function finds, held against the elements it finds something for. -/
theorem forall₂_filterMap {α β : Type} {R : α → β → Prop} (g : α → Option β) (q : α → Bool) :
    ∀ l : List α, (∀ x ∈ l, q x = true → ∃ y, g x = some y ∧ R x y) →
      (∀ x ∈ l, q x = false → g x = none) → List.Forall₂ R (l.filter q) (l.filterMap g)
  | [], _, _ => .nil
  | x :: l, hsome, hnone => by
      have ih := forall₂_filterMap g q l (fun y hy => hsome y (List.mem_cons_of_mem _ hy))
        (fun y hy => hnone y (List.mem_cons_of_mem _ hy))
      cases hq : q x with
      | true =>
        obtain ⟨y, hg, hR⟩ := hsome x (by simp) hq
        simpa [hq, hg] using List.Forall₂.cons hR ih
      | false => simpa [hq, hnone x (by simp) hq] using ih

/-- The actions of a plan, finding by finding. -/
theorem forall₂_settles (r : Registry) (p : Production.Index) (options : Policy) :
    List.Forall₂ (Settles r p options) ((validate r p).filter (·.kind.canBeSettled))
      (Plan.ofReport r p options (validate r p)).actions :=
  forall₂_filterMap _ _ _ (fun _ hf hkind => exists_settle options hf hkind)
    (fun _ _ hkind => settle_eq_none hkind)

/-- The actions of a plan are those that settle a finding. -/
theorem mem_actions {a : Action} :
    a ∈ (Plan.ofReport r p options (validate r p)).actions ↔
      ∃ f ∈ validate r p, f.kind.canBeSettled = true ∧ Plan.settle r p options f = some a := by
  simp only [Plan.ofReport, List.mem_filterMap]
  refine exists_congr fun f => and_congr_right fun _ => ?_
  cases hkind : f.kind.canBeSettled with
  | true => simp
  | false => simp [settle_eq_none hkind]

/-- The links that a plan adds to a test. -/
theorem mem_added {test : Text} {link : Link} :
    link ∈ (Plan.ofReport r p options (validate r p)).actions.filterMap (·.addedTo? test) ↔
      Reports r p .missingTestLink test link.target ∧ link.covers = !options.linkOnly := by
  simp only [List.mem_filterMap, mem_actions]
  constructor
  · rintro ⟨a, ⟨f, hf, hkind, ha⟩, hadd⟩
    obtain ⟨b, hb, hsettles⟩ := exists_settle options hf hkind
    obtain rfl : a = b := Option.some.inj (ha.symm.trans hb)
    cases hsettles with
    | addsReference => simp at hadd
    | removesLink => simp at hadd
    | addsLink hk htarget hrecord =>
      obtain ⟨htest, rfl⟩ : f.test = test ∧ _ = link := by simpa using hadd
      exact ⟨⟨f, hf, hk, htest, htarget⟩, rfl⟩
  · rintro ⟨⟨f, hf, hk, rfl, htarget⟩, hcovers⟩
    have hkind : f.kind.canBeSettled = true := by rw [hk]; rfl
    obtain ⟨a, ha, hsettles⟩ := exists_settle options hf hkind
    refine ⟨a, ⟨f, hf, hkind, ha⟩, ?_⟩
    cases hsettles with
    | addsReference hk' => simp [hk] at hk'
    | removesLink hk' => simp [hk] at hk'
    | addsLink _ htarget' =>
      obtain rfl := Option.some.inj (htarget.symm.trans htarget')
      simp [← hcovers]

/-- The references that a plan adds to a method. -/
theorem mem_references {method : Target} {reference : BackReference} :
    reference ∈
        (Plan.ofReport r p options (validate r p)).actions.filterMap (·.referenceFor? method) ↔
      options.prune = false ∧
        ∃ test, Reports r p .missingTestedBy test method ∧ .ofIdentifier test = reference := by
  simp only [List.mem_filterMap, mem_actions]
  constructor
  · rintro ⟨a, ⟨f, hf, hkind, ha⟩, hadd⟩
    obtain ⟨b, hb, hsettles⟩ := exists_settle options hf hkind
    obtain rfl : a = b := Option.some.inj (ha.symm.trans hb)
    cases hsettles with
    | addsReference hk htarget _ hkeeps =>
      obtain ⟨rfl, rfl⟩ : _ = method ∧ _ = reference := by simpa using hadd
      exact ⟨hkeeps, f.test, ⟨f, hf, hk, rfl, htarget⟩, rfl⟩
    | removesLink => simp at hadd
    | addsLink => simp at hadd
  · rintro ⟨hprune, test, ⟨f, hf, hk, rfl, htarget⟩, rfl⟩
    have hkind : f.kind.canBeSettled = true := by rw [hk]; rfl
    obtain ⟨a, ha, hsettles⟩ := exists_settle options hf hkind
    refine ⟨a, ⟨f, hf, hkind, ha⟩, ?_⟩
    cases hsettles with
    | addsReference _ htarget' =>
      obtain rfl := Option.some.inj (htarget.symm.trans htarget')
      simp
    | removesLink _ _ _ hprunes => simp [hprune] at hprunes
    | addsLink hk' => simp [hk] at hk'

/-- The links that a plan removes from a test. -/
theorem any_removes {test : Text} {target : Target} :
    (Plan.ofReport r p options (validate r p)).actions.any (·.removes test target) = true ↔
      options.prune = true ∧ Reports r p .missingTestedBy test target := by
  simp only [List.any_eq_true, mem_actions]
  constructor
  · rintro ⟨a, ⟨f, hf, hkind, ha⟩, hremoves⟩
    obtain ⟨b, hb, hsettles⟩ := exists_settle options hf hkind
    obtain rfl : a = b := Option.some.inj (ha.symm.trans hb)
    cases hsettles with
    | addsReference => simp at hremoves
    | removesLink hk htarget _ hprunes =>
      obtain ⟨rfl, rfl⟩ : f.test = test ∧ _ = target := by simpa using hremoves
      exact ⟨hprunes, f, hf, hk, rfl, htarget⟩
    | addsLink => simp at hremoves
  · rintro ⟨hprune, f, hf, hk, rfl, htarget⟩
    have hkind : f.kind.canBeSettled = true := by rw [hk]; rfl
    obtain ⟨a, ha, hsettles⟩ := exists_settle options hf hkind
    refine ⟨a, ⟨f, hf, hkind, ha⟩, ?_⟩
    cases hsettles with
    | addsReference _ _ _ hkeeps => simp [hprune] at hkeeps
    | removesLink _ htarget' =>
      obtain rfl := Option.some.inj (htarget.symm.trans htarget')
      simp
    | addsLink hk' => simp [hk] at hk'

/-- No link is removed from a test to which a plan adds it. -/
theorem removes_added {test : Text} {link : Link}
    (hlink : link ∈
      (Plan.ofReport r p options (validate r p)).actions.filterMap (·.addedTo? test))
    {a : Action} (ha : a ∈ (Plan.ofReport r p options (validate r p)).actions) :
    a.removes test link.target = false := by
  by_contra hremoves
  have hany : (Plan.ofReport r p options (validate r p)).actions.any
      (·.removes test link.target) = true :=
    List.any_eq_true.mpr ⟨a, ha, by simpa using hremoves⟩
  exact not_reports_both (mem_added.mp hlink).1 (any_removes.mp hany).2

end Crosslink
