import Crosslink.Proofs.Convergence

/-!
# Carrying out a plan that prunes

When links are pruned, a link without a back-reference is removed instead of being answered. The
action names the first record of the test only. A link that another record of the test declares
therefore stays, and so does the finding on it; everything else that can be settled is.

## Main statements

* `mem_validate_afterPruning`: the report after a plan that prunes.
* `prune_settles_iff`: when such a plan settles its report.
* `prune_leaves_later_link`: two records of one test, for which it does not.
-/

namespace Crosslink

open Validation

section Pruning

variable {r : Registry} {p : Production.Index} {options : Policy} {f : Finding}
  (hprune : options.prune = true)

/-- A finding that a plan which prunes leaves: one that cannot be settled, or one on a link that
some record of its test after the first declares. -/
def StaysPruned (r : Registry) (f : Finding) : Prop :=
  f.kind.canBeSettled = false ∨
    f.kind = .missingTestedBy ∧ ∃ link ∈ r.laterLinks f.test, f.target = some link.target

/-! ## §1 The two sides -/

include hprune in
theorem plannedReferences_of_prune (method : Target) :
    plannedReferences r p options method = [] := by
  refine List.eq_nil_iff_forall_not_mem.mpr fun reference hmem => ?_
  have := (mem_references.mp hmem).1
  simp [hprune] at this

include hprune in
theorem method?_afterPruning (target : Target) :
    (afterPlan r p options).production.method? target = p.method? target := by
  rw [method?_afterPlan, plannedReferences_of_prune hprune]
  cases p.method? target <;> simp

include hprune in
/-- The links of a test after a plan that prunes. -/
theorem mem_linksOf_afterPruning {test : Text} (h : test ∈ r.identifiers) {link : Link} :
    link ∈ (afterPlan r p options).registry.linksOf test ↔
      link ∈ r.firstLinks test ∧ ¬ Reports r p .missingTestedBy test link.target ∨
        link ∈ plannedLinks r p options test ∨ link ∈ r.laterLinks test := by
  have hremoved : (Plan.ofReport r p options (validate r p)).actions.any
      (·.removes test link.target) = false ↔ ¬ Reports r p .missingTestedBy test link.target := by
    rw [Bool.eq_false_iff, Ne, any_removes]
    simp [hprune]
  rw [linksOf_afterPlan h, List.mem_append, List.mem_append, List.mem_filter, or_assoc,
    Bool.not_eq_true', hremoved]

include hprune in
theorem checkLink_afterPruning (test : Text) (link : Link) :
    checkLink (afterPlan r p options).registry (afterPlan r p options).production test link =
      checkLink r p test link := by
  rw [checkLink_congr places_afterPlan]
  unfold checkLink
  simp only [method?_afterPruning hprune, knowsClass_afterPlan]

include hprune in
/-- A plan that prunes removes no link that a back-reference counts on, and adds those missing. -/
theorem linksBack_afterPruning {method : Target} {entry : Production.Entry}
    {reference : BackReference} {test : Text} (hentry : p.method? method = some entry)
    (hmem : reference ∈ entry.testedBy) (hmember : reference.member.isSome = true)
    (htest : test ∈ r.identifiers) (hnamed : reference.names test = true) :
    linksBack (afterPlan r p options).registry method test = true := by
  by_cases hback : linksBack r method test = true
  · obtain ⟨link, hlink, htarget⟩ := List.any_eq_true.mp hback
    refine List.any_eq_true.mpr ⟨link, (mem_linksOf_afterPruning hprune htest).mpr ?_, htarget⟩
    have hkept : ¬ Reports r p .missingTestedBy test link.target := by
      intro hreports
      obtain ⟨-, other, hother, hnot⟩ := reports_missingTestedBy.mp hreports
      rcases Bool.or_eq_true_iff.mp htarget with h | h
      · -- the link is to the method itself, which names the test
        rw [beq_iff_eq.mp h, hentry] at hother
        exact hnot (Option.some.inj hother ▸ ⟨reference, hmem, hnamed⟩)
      · -- the link is to the class, which is no method
        have hclass := Production.Index.isClass_of_method? hother
        rw [beq_iff_eq.mp h] at hclass
        simp [Target.isClass, Target.owner] at hclass
    rw [Registry.linksOf_eq, List.mem_append] at hlink
    exact hlink.imp (⟨·, hkept⟩) Or.inr
  · refine linksBack_of_mem_plannedLinks htest (reports_missingTestLink.mpr ?_)
    exact ⟨htest, by simpa using hback, entry, hentry, reference, hmem, hmember, hnamed⟩

/-! ## §2 The findings -/

include hprune in
/-- What a back-reference comes to after a plan that prunes: an orphan stays one, and no link is
missing. -/
theorem mem_checkBackReference_afterPruning {method : Target} {entry : Production.Entry}
    {reference : BackReference} (hentry : p.method? method = some entry)
    (hmem : reference ∈ entry.testedBy) :
    f ∈ checkBackReference (afterPlan r p options).registry method entry reference ↔
      f ∈ checkBackReference r method entry reference ∧ f.kind.canBeSettled = false := by
  rw [checkBackReference_eq, checkBackReference_eq]
  by_cases horphan : r.named reference = []
  · rw [if_pos horphan,
      if_pos ((Registry.named_eq_nil_congr places_afterPlan reference).mpr horphan)]
    simp only [List.mem_singleton, iff_self_and]
    rintro rfl
    rfl
  · rw [if_neg horphan,
      if_neg (fun h => horphan ((Registry.named_eq_nil_congr places_afterPlan reference).mp h))]
    by_cases hmember : reference.member.isNone = true
    · simp [hmember]
    · rw [if_neg hmember, if_neg hmember]
      have hsome : reference.member.isSome = true := by
        simpa [Option.isSome_iff_ne_none] using hmember
      constructor
      · intro hf
        obtain ⟨record, hrecord, -⟩ := List.mem_map.mp hf
        obtain ⟨hrecord, hback⟩ := List.mem_filter.mp hrecord
        obtain ⟨hrecord, hnamed⟩ := List.mem_filter.mp hrecord
        have htest := Registry.mem_identifiers.mpr ⟨record, hrecord, rfl⟩
        rw [identifiers_afterPlan] at htest
        rw [linksBack_afterPruning hprune hentry hmem hsome htest hnamed] at hback
        simp at hback
      · rintro ⟨hf, hkind⟩
        obtain ⟨record, -, rfl⟩ := List.mem_map.mp hf
        simp [Finding.Kind.canBeSettled] at hkind

include hprune in
/-- The findings after a plan that prunes. -/
theorem mem_findings_afterPruning :
    f ∈ findings (afterPlan r p options).registry (afterPlan r p options).production ↔
      f ∈ findings r p ∧ StaysPruned r f := by
  rw [mem_findings, mem_findings]
  constructor
  · rintro (⟨test, link, hlink, hf⟩ | ⟨method, entry, hentry, reference, hmem, hf⟩ |
      ⟨test, count, hmem, rfl⟩)
    · have htest := Registry.mem_identifiers_of_mem_linksOf hlink
      rw [identifiers_afterPlan] at htest
      obtain ⟨rfl, -, htarget⟩ := checkLink_place hf
      rcases (mem_linksOf_afterPruning hprune htest).mp hlink with ⟨hfirst, hkept⟩ | hadded | hlater
      · rw [checkLink_afterPruning hprune] at hf
        have hold : link ∈ r.linksOf f.test := by
          rw [Registry.linksOf_eq]
          exact List.mem_append_left _ hfirst
        refine ⟨Or.inl ⟨_, link, hold, hf⟩, Or.inl ?_⟩
        cases hm : p.method? link.target with
        | none => rw [kind_of_checkLink hm hf]; rfl
        | some entry =>
          refine absurd (reports_missingTestedBy.mpr ⟨⟨link, hold, rfl⟩, entry, hm, ?_⟩) hkept
          intro hnames
          rw [checkLink_of_method? hm, if_pos (names_iff_any.mp hnames)] at hf
          simp at hf
      · rw [checkLink_plannedLinks hadded] at hf
        simp at hf
      · rw [checkLink_afterPruning hprune] at hf
        have hold : link ∈ r.linksOf f.test := by
          rw [Registry.linksOf_eq]
          exact List.mem_append_right _ hlater
        refine ⟨Or.inl ⟨_, link, hold, hf⟩, ?_⟩
        cases hm : p.method? link.target with
        | none => left; rw [kind_of_checkLink hm hf]; rfl
        | some entry =>
          have hkind : f.kind = .missingTestedBy := by
            rw [checkLink_of_method? hm] at hf
            split at hf
            · simp at hf
            · rw [List.mem_singleton.mp hf]
          exact Or.inr ⟨hkind, link, hlater, htarget⟩
    · rw [method?_afterPruning hprune] at hentry
      obtain ⟨hf, hkind⟩ := (mem_checkBackReference_afterPruning hprune hentry hmem).mp hf
      exact ⟨Or.inr (Or.inl ⟨method, entry, hentry, reference, hmem, hf⟩), Or.inl hkind⟩
    · rw [Registry.duplicates_congr places_afterPlan] at hmem
      refine ⟨Or.inr (Or.inr ⟨test, count, hmem, ?_⟩), Or.inl rfl⟩
      simp only [duplicate, Registry.file_get?_congr places_afterPlan]
  · rintro ⟨⟨test, link, hlink, hf⟩ | ⟨method, entry, hentry, reference, hmem, hf⟩ |
      ⟨test, count, hmem, rfl⟩, hstays⟩
    · have htest := Registry.mem_identifiers_of_mem_linksOf hlink
      obtain ⟨rfl, -, htarget⟩ := checkLink_place hf
      refine Or.inl ?_
      rcases hstays with hkind | ⟨-, later, hlater, hsame⟩
      · refine ⟨_, link, (mem_linksOf_afterPruning hprune htest).mpr ?_,
          by rwa [checkLink_afterPruning hprune]⟩
        rw [Registry.linksOf_eq, List.mem_append] at hlink
        refine hlink.imp (⟨·, ?_⟩) Or.inr
        intro hreports
        obtain ⟨-, entry, hentry, hnot⟩ := reports_missingTestedBy.mp hreports
        rw [checkLink_of_method? hentry, if_neg (by rwa [← names_iff_any])] at hf
        rw [List.mem_singleton.mp hf] at hkind
        simp [Finding.Kind.canBeSettled] at hkind
      · obtain heq : link.target = later.target := Option.some.inj (htarget.symm.trans hsame)
        have hsame' : checkLink r p f.test later = checkLink r p f.test link := by
          unfold checkLink
          rw [heq]
        exact ⟨_, later, (mem_linksOf_afterPruning hprune htest).mpr (Or.inr (Or.inr hlater)),
          by rwa [checkLink_afterPruning hprune, hsame']⟩
    · refine Or.inr (Or.inl ⟨method, entry, by rwa [method?_afterPruning hprune], reference, hmem,
        (mem_checkBackReference_afterPruning hprune hentry hmem).mpr ⟨hf, ?_⟩⟩)
      rcases hstays with hkind | ⟨hkind, -⟩
      · exact hkind
      · rw [checkBackReference_eq] at hf
        split at hf
        · rw [List.mem_singleton.mp hf] at hkind
          simp at hkind
        · split at hf
          · simp at hf
          · obtain ⟨record, -, rfl⟩ := List.mem_map.mp hf
            simp at hkind
    · refine Or.inr (Or.inr ⟨test, count, by rwa [Registry.duplicates_congr places_afterPlan], ?_⟩)
      simp only [duplicate, Registry.file_get?_congr places_afterPlan]

/-! ## §3 The report -/

theorem StaysPruned.kind_ne (h : StaysPruned r f) : f.kind ≠ .missingTestLink := by
  rintro hk
  rcases h with hkind | ⟨hkind, -⟩
  · simp [hk, Finding.Kind.canBeSettled] at hkind
  · simp [hk] at hkind

include hprune in
/-- The report after a plan that prunes. -/
theorem mem_validate_afterPruning :
    f ∈ validate (afterPlan r p options).registry (afterPlan r p options).production ↔
      f ∈ validate r p ∧ StaysPruned r f := by
  constructor
  · intro h
    obtain ⟨hf, hstays⟩ := (mem_findings_afterPruning hprune).mp (mem_of_mem_report h)
    exact ⟨(mem_validate hstays.kind_ne).mpr hf, hstays⟩
  · rintro ⟨h, hstays⟩
    rw [mem_validate hstays.kind_ne, mem_findings_afterPruning hprune]
    exact ⟨mem_of_mem_report h, hstays⟩

end Pruning

/-- **What a plan that prunes leaves.** No finding is new and no link is missing after it; and it
leaves no link without a back-reference exactly when every such link is declared by the first
record of its test alone. -/
theorem prune_settles_iff (r : Registry) (p : Production.Index) (options : Policy)
    (hprune : options.prune = true) :
    let after := Sides.enactAll ⟨r, p⟩ (Plan.ofReport r p options (validate r p)).actions
    (∀ f ∈ validate after.registry after.production, f ∈ validate r p) ∧
    (∀ f ∈ validate after.registry after.production, f.kind ≠ .missingTestLink) ∧
    ((∀ f ∈ validate after.registry after.production, f.kind ≠ .missingTestedBy) ↔
      ∀ f ∈ validate r p, f.kind = .missingTestedBy →
        ∀ link ∈ r.laterLinks f.test, f.target ≠ some link.target) := by
  intro after
  have hmem : ∀ f, f ∈ validate after.registry after.production ↔
      f ∈ validate r p ∧ StaysPruned r f := fun f => mem_validate_afterPruning hprune
  refine ⟨fun f hf => ((hmem f).mp hf).1, fun f hf => ((hmem f).mp hf).2.kind_ne, ?_⟩
  constructor
  · intro h f hf hkind link hlink htarget
    exact h f ((hmem f).mpr ⟨hf, Or.inr ⟨hkind, link, hlink, htarget⟩⟩) hkind
  · intro h f hf hkind
    obtain ⟨hold, hstays | ⟨-, link, hlink, htarget⟩⟩ := (hmem f).mp hf
    · simp [hkind, Finding.Kind.canBeSettled] at hstays
    · exact h f hold hkind link hlink htarget

/-- One record of a test, and a link of it without a back-reference: nothing is left. -/
theorem prune_settles_iff_single :
    let r : Registry := ⟨[recordOf "T.php" "t" [⟨⟨"A", some "f"⟩, true⟩]]⟩
    let p := indexOf []
    let options : Policy := { prune := true }
    let after := Sides.enactAll ⟨r, p⟩ (Plan.ofReport r p options (validate r p)).actions
    options.prune = true ∧ (∀ f ∈ validate after.registry after.production, f ∈ validate r p) ∧
    (∀ f ∈ validate after.registry after.production, f.kind ≠ .missingTestLink) ∧
    ((∀ f ∈ validate after.registry after.production, f.kind ≠ .missingTestedBy) ↔
      ∀ f ∈ validate r p, f.kind = .missingTestedBy →
        ∀ link ∈ r.laterLinks f.test, f.target ≠ some link.target) :=
  ⟨rfl, prune_settles_iff _ _ _ rfl⟩

/-- Two records of one test, of which only the second declares a link without a back-reference: the
plan takes the link out of the first one, and the finding stays. -/
theorem prune_leaves_later_link :
    let r : Registry :=
      ⟨[recordOf "a/T.php" "t" [], recordOf "b/T.php" "t" [⟨⟨"A", some "f"⟩, true⟩]]⟩
    let p := indexOf []
    let after := Sides.enactAll ⟨r, p⟩
      (Plan.ofReport r p { prune := true } (validate r p)).actions
    (∀ record ∈ r.records,
      (BackReference.ofIdentifier record.identifier).names record.identifier = true) ∧
    ¬ ∀ f ∈ validate after.registry after.production, f.kind ≠ .missingTestedBy := by
  intro r p after
  refine ⟨by decide, fun hnone => ?_⟩
  have hlater : r.laterLinks "T::t" = [⟨⟨"A", some "f"⟩, true⟩] := by decide
  have hmethod : p.method? ⟨"A", some "f"⟩ = some ⟨"a.php", []⟩ := by decide
  obtain ⟨f, hf, hkind, htest, htarget⟩ :
      Reports r p .missingTestedBy "T::t" ⟨"A", some "f"⟩ :=
    reports_missingTestedBy.mpr
      ⟨⟨⟨⟨"A", some "f"⟩, true⟩, by decide, rfl⟩, _, hmethod, by simp [Names]⟩
  have hstays : StaysPruned r f :=
    Or.inr ⟨hkind, ⟨⟨"A", some "f"⟩, true⟩, by rw [htest, hlater]; exact List.mem_singleton.mpr rfl,
      htarget⟩
  exact hnone f ((mem_validate_afterPruning rfl).mpr ⟨hf, hstays⟩) hkind

end Crosslink
