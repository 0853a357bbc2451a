import Crosslink.Proofs.Findings

/-!
# Validation decides whether the two sides agree

Links and back-references agree when every link leads to something that exists and is answered,
every back-reference names some test and is answered, and no two tests share an identifier. This is
said of the records and of the methods, without the views validation goes through.

## Main statements

* `reports_danglingLink`: a link is reported to dangle exactly where its target does not exist.
* `validate_eq_nil_iff_agree`: a report is empty exactly when the two sides agree, and of the three
  kinds of findings on a link at most one is reported of a test and a target.
-/

namespace Crosslink

/-- The two sides agree. -/
structure Agree (r : Registry) (p : Production.Index) : Prop where
  /-- The target of every link exists. -/
  known : ∀ record ∈ r.records, ∀ link ∈ record.links, p.knows link.target = true
  /-- A method that a test links names the test. -/
  answered : ∀ record ∈ r.records, ∀ link ∈ record.links, ∀ entry,
    p.method? link.target = some entry →
      ∃ reference ∈ entry.testedBy, reference.names record.identifier = true
  /-- Every back-reference names a test. -/
  found : ∀ method entry, (method, entry) ∈ p.methods → ∀ reference ∈ entry.testedBy,
    ∃ record ∈ r.records, reference.names record.identifier = true
  /-- A test that a method names by itself links the method or its class. -/
  linked : ∀ method entry, (method, entry) ∈ p.methods → ∀ reference ∈ entry.testedBy,
    reference.member.isSome = true → ∀ record ∈ r.records,
      reference.names record.identifier = true →
        ∃ other ∈ r.records, other.identifier = record.identifier ∧
          ∃ link ∈ other.links, link.target = method ∨ link.target = method.owner
  /-- No identifier is registered twice. -/
  distinct : (r.records.map RegisteredTest.identifier).Nodup

namespace Validation

variable {r : Registry} {p : Production.Index}

/-! ## §1 Links -/

theorem mem_linksOf {test : Text} {link : Link} :
    link ∈ r.linksOf test ↔ ∃ record ∈ r.records, record.identifier = test ∧ link ∈ record.links := by
  simp [Registry.linksOf, and_assoc]

/-- A method in the index is known. -/
theorem knows_of_method? {target : Target} {entry : Production.Entry}
    (h : p.method? target = some entry) : p.knows target = true := by
  have hclass : target.isClass = false := Production.Index.isClass_of_method? h
  simp [Production.Index.knows, hclass, h]

/-- Nothing is found on a link whose target exists and, if it is a method, names the test. -/
theorem checkLink_eq_nil_iff {test : Text} {link : Link} :
    checkLink r p test link = [] ↔
      p.knows link.target = true ∧ ∀ entry, p.method? link.target = some entry → Names entry test := by
  cases hm : p.method? link.target with
  | some entry =>
    rw [checkLink_of_method? hm]
    by_cases hnames : Names entry test
    · rw [if_pos (names_iff_any.mp hnames)]
      refine iff_of_true rfl ⟨knows_of_method? hm, ?_⟩
      rintro _ ⟨⟩
      exact hnames
    · rw [if_neg (fun h => hnames (names_iff_any.mpr h))]
      exact iff_of_false (List.cons_ne_nil _ _) fun h => hnames (h.2 entry rfl)
  | none =>
    simp only [reduceCtorEq, false_implies, implies_true, and_true, Production.Index.knows, hm,
      checkLink, Option.isSome_none]
    split
    · rename_i hclass
      split <;> simp_all
    · split <;> simp

/-- A link is reported to dangle exactly where a test links what does not exist. -/
theorem reports_danglingLink {test : Text} {target : Target} :
    Reports r p .danglingLink test target ↔ Links r test target ∧ p.knows target = false := by
  rw [reports_iff_findings]
  constructor
  · rintro ⟨f, hf, hkind, htest, htarget⟩
    rcases mem_findings.mp hf with ⟨t, link, hlink, hf⟩ |
      ⟨method, entry, -, reference, -, hf⟩ | ⟨t, count, -, rfl⟩
    · obtain ⟨ht, -, hl⟩ := checkLink_place hf
      obtain rfl : t = test := ht.symm.trans htest
      obtain rfl : link.target = target := Option.some.inj (hl.symm.trans htarget)
      refine ⟨⟨link, hlink, rfl⟩, Bool.eq_false_iff.mpr fun hknows => ?_⟩
      cases hm : p.method? link.target with
      | none =>
        have hnil : checkLink r p t link = [] :=
          checkLink_eq_nil_iff.mpr ⟨hknows, by simp [hm]⟩
        simp [hnil] at hf
      | some entry =>
        rw [checkLink_of_method? hm] at hf
        split at hf
        · simp at hf
        · simp [List.mem_singleton.mp hf] at hkind
    · rw [checkBackReference_eq] at hf
      split at hf
      · simp [List.mem_singleton.mp hf] at hkind
      · split at hf
        · simp at hf
        · obtain ⟨record, -, rfl⟩ := List.mem_map.mp hf
          simp at hkind
    · simp [duplicate] at hkind
  · rintro ⟨⟨link, hlink, rfl⟩, hknows⟩
    have hnone : p.method? link.target = none := by
      cases hm : p.method? link.target with
      | none => rfl
      | some entry => simp [knows_of_method? hm] at hknows
    have hne : checkLink r p test link ≠ [] := fun hnil => by
      simp [(checkLink_eq_nil_iff.mp hnil).1] at hknows
    obtain ⟨f, hf⟩ := List.exists_mem_of_ne_nil _ hne
    obtain ⟨htest, -, htarget⟩ := checkLink_place hf
    exact ⟨f, mem_findings.mpr (Or.inl ⟨test, link, hlink, hf⟩), kind_of_checkLink hnone hf, htest,
      htarget⟩

/-- A link that dangles asks for no back-reference. -/
theorem not_missingTestedBy_of_danglingLink {test : Text} {target : Target}
    (h : Reports r p .danglingLink test target) : ¬ Reports r p .missingTestedBy test target := by
  intro hmissing
  have hknows := (reports_danglingLink.mp h).2
  obtain ⟨-, entry, hentry, -⟩ := reports_missingTestedBy.mp hmissing
  simp [knows_of_method? hentry] at hknows

/-- A link that dangles is asked for by no back-reference. -/
theorem not_missingTestLink_of_danglingLink {test : Text} {target : Target}
    (h : Reports r p .danglingLink test target) : ¬ Reports r p .missingTestLink test target := by
  intro hmissing
  have hlinks := (reports_danglingLink.mp h).1
  have hsilent := (reports_missingTestLink.mp hmissing).2.1
  rw [linksBack_iff.mpr (Or.inl hlinks)] at hsilent
  exact Bool.noConfusion hsilent

/-! ## §2 Back-references and repeated tests -/

/-- Nothing is found on a back-reference that names a test and, if it names one by itself, is
answered by it. -/
theorem checkBackReference_eq_nil_iff {method : Target} {entry : Production.Entry}
    {reference : BackReference} :
    checkBackReference r method entry reference = [] ↔
      (∃ record ∈ r.records, reference.names record.identifier = true) ∧
        (reference.member.isSome = true → ∀ record ∈ r.records,
          reference.names record.identifier = true →
            Links r record.identifier method ∨ Links r record.identifier method.owner) := by
  have hnamed : r.named reference = [] ↔
      ¬ ∃ record ∈ r.records, reference.names record.identifier = true := by
    simp [Registry.named, List.filter_eq_nil_iff]
  rw [checkBackReference_eq]
  split
  · rename_i hnil
    simp [hnamed.mp hnil]
  · rename_i hne
    rw [hnamed, Classical.not_not] at hne
    cases hmember : reference.member with
    | none => simp [hne]
    | some member =>
      rw [if_neg (by simp), List.map_eq_nil_iff, List.filter_eq_nil_iff]
      constructor
      · refine fun h => ⟨hne, fun _ record hmem hnames => linksBack_iff.mp ?_⟩
        simpa using h record (List.mem_filter.mpr ⟨hmem, hnames⟩)
      · rintro ⟨-, h⟩ record hrecord
        obtain ⟨hmem, hnames⟩ := List.mem_filter.mp hrecord
        simp [linksBack_iff.mpr (h rfl record hmem hnames)]

/-- No test is reported as repeated exactly when no two records share an identifier. -/
theorem duplicates_eq_nil_iff :
    r.duplicates = [] ↔ (r.records.map RegisteredTest.identifier).Nodup := by
  have hcount : ∀ test, r.records.countP (·.identifier == test)
      = (r.records.map RegisteredTest.identifier).count test := by
    intro test
    simp [List.count, List.countP_map, Function.comp_def]
  rw [List.nodup_iff_count, Registry.duplicates, List.filter_eq_nil_iff]
  constructor
  · intro h test
    by_cases hmem : test ∈ r.identifiers
    · have := h (test, _) (List.mem_map.mpr ⟨test, hmem, rfl⟩)
      simpa [hcount] using this
    · have hnot : test ∉ r.records.map RegisteredTest.identifier := fun hm =>
        hmem (Registry.mem_identifiers.mpr (List.mem_map.mp hm))
      rw [List.count_eq_zero.mpr hnot]
      exact Nat.zero_le 1
  · intro h x hx
    obtain ⟨test, -, rfl⟩ := List.mem_map.mp hx
    simpa [hcount] using h test

/-! ## §3 Reports without findings -/

theorem findings_eq_nil_iff : findings r p = [] ↔ Agree r p := by
  have hlinks : (∀ test, ∀ link ∈ r.linksOf test, checkLink r p test link = []) ↔
      ∀ record ∈ r.records, ∀ link ∈ record.links, p.knows link.target = true ∧
        ∀ entry, p.method? link.target = some entry → Names entry record.identifier := by
    simp only [mem_linksOf, checkLink_eq_nil_iff]
    constructor
    · exact fun h record hrecord link hlink => h _ link ⟨record, hrecord, rfl, hlink⟩
    · rintro h test link ⟨record, hrecord, rfl, hlink⟩
      exact h record hrecord link hlink
  have hnil : findings r p = [] ↔
      (∀ test, ∀ link ∈ r.linksOf test, checkLink r p test link = []) ∧
        (∀ method entry, p.method? method = some entry → ∀ reference ∈ entry.testedBy,
          checkBackReference r method entry reference = []) ∧ r.duplicates = [] := by
    constructor
    · intro h
      have hnone : ∀ f, f ∉ findings r p := by simp [h]
      refine ⟨fun test link hlink => ?_, fun method entry hentry reference hreference => ?_, ?_⟩
      · exact List.eq_nil_iff_forall_not_mem.mpr fun f hf =>
          hnone f (mem_findings.mpr (Or.inl ⟨test, link, hlink, hf⟩))
      · exact List.eq_nil_iff_forall_not_mem.mpr fun f hf => hnone f (mem_findings.mpr
          (Or.inr (Or.inl ⟨method, entry, hentry, reference, hreference, hf⟩)))
      · exact List.eq_nil_iff_forall_not_mem.mpr fun x hx => hnone _ (mem_findings.mpr
          (Or.inr (Or.inr ⟨x.1, x.2, hx, rfl⟩)))
    · rintro ⟨hlink, hback, hdup⟩
      refine List.eq_nil_iff_forall_not_mem.mpr fun f hf => ?_
      rcases mem_findings.mp hf with ⟨test, link, hl, hf⟩ |
        ⟨method, entry, hentry, reference, hreference, hf⟩ | ⟨test, count, hmem, -⟩
      · simp [hlink test link hl] at hf
      · simp [hback method entry hentry reference hreference] at hf
      · simp [hdup] at hmem
  rw [hnil, hlinks, duplicates_eq_nil_iff]
  simp only [checkBackReference_eq_nil_iff]
  have hanswers : ∀ {test : Text} {method : Target},
      Links r test method ∨ Links r test method.owner ↔
        ∃ other ∈ r.records, other.identifier = test ∧
          ∃ link ∈ other.links, link.target = method ∨ link.target = method.owner := by
    intro test method
    simp only [Links, mem_linksOf]
    grind
  simp only [hanswers]
  constructor
  · rintro ⟨hl, hb, hd⟩
    exact ⟨fun record hr link hm => (hl record hr link hm).1,
      fun record hr link hm => (hl record hr link hm).2,
      fun method entry he reference hm =>
        (hb method entry (Production.Index.mem_methods.mp he) reference hm).1,
      fun method entry he reference hm =>
        (hb method entry (Production.Index.mem_methods.mp he) reference hm).2, hd⟩
  · rintro ⟨hknown, hanswered, hfound, hlinked, hd⟩
    exact ⟨fun record hr link hm => ⟨hknown record hr link hm, hanswered record hr link hm⟩,
      fun method entry he reference hm =>
        ⟨hfound method entry (Production.Index.mem_methods.mpr he) reference hm,
          hlinked method entry (Production.Index.mem_methods.mpr he) reference hm⟩, hd⟩

theorem report_eq_nil_iff {findings : List Finding} : report findings = [] ↔ findings = [] := by
  constructor
  · intro h
    refine List.eq_nil_iff_forall_not_mem.mpr fun f hf => ?_
    obtain ⟨g, hg, -⟩ := exists_mem_report hf
    simp [h] at hg
  · rintro rfl
    exact List.eq_nil_iff_forall_not_mem.mpr fun f hf => by simpa using mem_of_mem_report hf

end Validation

open Validation

/-- **Validation decides agreement.** The report is empty exactly when the two sides agree, and of
the three kinds of findings on a link at most one is reported of a test and a target. -/
theorem validate_eq_nil_iff_agree (r : Registry) (p : Production.Index) :
    (validate r p = [] ↔ Agree r p) ∧
    ∀ (test : Text) (target : Target),
      ¬ (Reports r p .missingTestedBy test target ∧ Reports r p .danglingLink test target) ∧
      ¬ (Reports r p .missingTestedBy test target ∧ Reports r p .missingTestLink test target) ∧
      ¬ (Reports r p .danglingLink test target ∧ Reports r p .missingTestLink test target) := by
  refine ⟨report_eq_nil_iff.trans findings_eq_nil_iff, fun test target => ⟨?_, ?_, ?_⟩⟩
  · exact fun h => not_missingTestedBy_of_danglingLink h.2 h.1
  · exact fun h => not_reports_both h.2 h.1
  · exact fun h => not_missingTestLink_of_danglingLink h.1 h.2

end Crosslink
