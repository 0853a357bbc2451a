import Crosslink.Proofs.Enactment

/-!
# What validation finds

Validation goes through links, back-references and repeated tests. This module says which findings
each of them leads to, and puts it together into the conditions under which a report asks for a
back-reference or for a link.

## Main statements

* `reports_missingTestedBy`: a back-reference is asked for exactly where a test links a method that
  names no such test.
* `reports_missingTestLink`: a link is asked for exactly where a method names a registered test by
  itself and the test links neither the method nor its class.
* `mem_validate`: but for missing links, a report holds exactly the findings as they come up.
-/

namespace Crosslink

namespace Validation

variable {r s : Registry} {p : Production.Index} {f : Finding}

/-! ## §1 Links -/

theorem checkLink_congr (h : r.places = s.places) (p : Production.Index) (test : Text)
    (link : Link) : checkLink r p test link = checkLink s p test link := by
  unfold checkLink
  rw [Registry.file_get?_congr h]

/-- A finding on a link tells the test, its file and the target. -/
theorem checkLink_place {test : Text} {link : Link} (h : f ∈ checkLink r p test link) :
    f.test = test ∧ f.file = (r.get? test).map RegisteredTest.file ∧
      f.target = some link.target := by
  unfold checkLink at h
  simp only at h
  split at h
  · split at h
    · simp at h
    · simp only [List.mem_singleton] at h
      simp [h]
  · split at h
    · split at h <;> simp only [List.mem_singleton] at h <;> simp [h]
    · split at h
      · simp at h
      · simp only [List.mem_singleton] at h
        simp [h]

/-- A link to a method that exists can only miss its back-reference. -/
theorem checkLink_of_method? {test : Text} {link : Link} {entry : Production.Entry}
    (h : p.method? link.target = some entry) :
    checkLink r p test link =
      if entry.testedBy.any (·.names test) then []
      else
        [⟨.missingTestedBy, some link.target, test, (r.get? test).map RegisteredTest.file,
          test ++ " links " ++ link.target.canonical ++ " but has no back-reference"⟩] := by
  simp [checkLink, Production.Index.isClass_of_method? h, h]

/-- Of a link to a method that does not exist only the known classes matter. -/
theorem checkLink_of_none {q : Production.Index} {test : Text} {link : Link}
    (hp : p.method? link.target = none) (hq : q.method? link.target = none)
    (hknows : ∀ className, q.knowsClass className = p.knowsClass className) :
    checkLink r q test link = checkLink r p test link := by
  unfold checkLink
  simp only [hp, hq, hknows]

/-- Any other link can only lead nowhere. -/
theorem kind_of_checkLink {test : Text} {link : Link} (hnone : p.method? link.target = none)
    (h : f ∈ checkLink r p test link) : f.kind = .danglingLink := by
  unfold checkLink at h
  simp only [hnone] at h
  split at h
  · split at h
    · simp at h
    · simp only [List.mem_singleton] at h
      simp [h]
  · split at h <;> simp only [List.mem_singleton] at h <;> simp [h]

/-! ## §2 Back-references -/

/-- A back-reference that names no test is an orphan; one that names a single test asks for the
link of every record of it. -/
theorem checkBackReference_eq (r : Registry) (method : Target) (entry : Production.Entry)
    (reference : BackReference) :
    checkBackReference r method entry reference =
      if r.named reference = [] then
        [⟨.orphanedBackReference, some method, reference.display, some entry.file,
          method.canonical ++ " names unknown test " ++ reference.display⟩]
      else if reference.member.isNone then []
      else
        ((r.named reference).filter fun x => !linksBack r method x.identifier).map fun x =>
          ⟨.missingTestLink, some method, x.identifier, some x.file,
            method.canonical ++ " names " ++ x.identifier ++ " but the test does not link it"⟩ := by
  unfold checkBackReference
  cases r.named reference <;> simp

/-! ## §3 Findings -/

theorem mem_findings :
    f ∈ findings r p ↔
      (∃ test, ∃ link ∈ r.linksOf test, f ∈ checkLink r p test link) ∨
      (∃ method entry, p.method? method = some entry ∧
        ∃ reference ∈ entry.testedBy, f ∈ checkBackReference r method entry reference) ∨
      ∃ test count, (test, count) ∈ r.duplicates ∧ duplicate r test count = f := by
  simp only [findings, List.mem_append, List.mem_flatMap, List.mem_map, Prod.exists,
    Registry.linkView, Prod.mk.injEq, Production.Index.mem_methods, or_assoc]
  refine or_congr ?_ Iff.rfl
  constructor
  · rintro ⟨test, links, ⟨i, -, rfl, rfl⟩, link, hlink, hf⟩
    exact ⟨i, link, hlink, hf⟩
  · rintro ⟨test, link, hlink, hf⟩
    exact ⟨test, _, ⟨test, Registry.mem_identifiers_of_mem_linksOf hlink, rfl, rfl⟩, link,
      hlink, hf⟩

/-- A finding other than a missing link shows in a file that its kind, its target and its test
settle. -/
theorem file_of_mem_findings (h : f ∈ findings r p) (hkind : f.kind ≠ .missingTestLink) :
    f.file =
      if f.kind = .orphanedBackReference then
        (f.target.bind p.method?).map Production.Entry.file
      else (r.get? f.test).map RegisteredTest.file := by
  rcases mem_findings.mp h with ⟨test, link, -, hf⟩ | ⟨method, entry, hentry, reference, -, hf⟩ |
    ⟨test, count, -, rfl⟩
  · obtain ⟨htest, hfile, htarget⟩ := checkLink_place hf
    have hno : f.kind ≠ .orphanedBackReference := by
      cases hm : p.method? link.target with
      | none => simp [kind_of_checkLink hm hf]
      | some entry =>
        rw [checkLink_of_method? hm] at hf
        split at hf
        · simp at hf
        · simp [List.mem_singleton.mp hf]
    rw [if_neg hno, hfile, htest]
  · rw [checkBackReference_eq] at hf
    split at hf
    · obtain rfl := List.mem_singleton.mp hf
      simp [hentry]
    · split at hf
      · simp at hf
      · obtain ⟨record, -, rfl⟩ := List.mem_map.mp hf
        exact absurd rfl hkind
  · simp [duplicate]

/-- But for missing links, a report holds exactly the findings as they come up. -/
theorem mem_validate (hkind : f.kind ≠ .missingTestLink) :
    f ∈ validate r p ↔ f ∈ findings r p := by
  refine ⟨mem_of_mem_report, fun h => ?_⟩
  obtain ⟨g, hg, hsame⟩ := exists_mem_report h
  obtain ⟨hk, htarget, htest, -, hmessage⟩ := Finding.same_iff.mp hsame
  have hfile : g.file = f.file := by
    rw [file_of_mem_findings (mem_of_mem_report hg) (hk ▸ hkind), file_of_mem_findings h hkind,
      hk, htarget, htest]
  have heq : g = f := by
    cases g
    cases f
    simp_all
  exact heq ▸ hg

/-! ## §4 What a report asks for -/

/-- A report has a finding of this kind on a test and a target. -/
def Reports (r : Registry) (p : Production.Index) (kind : Finding.Kind) (test : Text)
    (target : Target) : Prop :=
  ∃ f ∈ validate r p, f.kind = kind ∧ f.test = test ∧ f.target = some target

theorem reports_iff_findings {kind : Finding.Kind} {test : Text} {target : Target} :
    Reports r p kind test target ↔
      ∃ f ∈ findings r p, f.kind = kind ∧ f.test = test ∧ f.target = some target := by
  constructor
  · rintro ⟨f, hf, hplace⟩
    exact ⟨f, mem_of_mem_report hf, hplace⟩
  · rintro ⟨f, hf, rfl, rfl, htarget⟩
    obtain ⟨g, hg, hsame⟩ := exists_mem_report hf
    obtain ⟨hk, ht, htest, -⟩ := Finding.same_iff.mp hsame
    exact ⟨g, hg, hk, htest, ht.trans htarget⟩

/-- A test links a method, one way or another. -/
def Links (r : Registry) (test : Text) (target : Target) : Prop :=
  ∃ link ∈ r.linksOf test, link.target = target

/-- A method names a test, by itself or with all others of its container. -/
def Names (entry : Production.Entry) (test : Text) : Prop :=
  ∃ reference ∈ entry.testedBy, reference.names test = true

/-- A method names a test by itself. -/
def NamesAlone (entry : Production.Entry) (test : Text) : Prop :=
  ∃ reference ∈ entry.testedBy, reference.member.isSome = true ∧ reference.names test = true

theorem names_iff_any {entry : Production.Entry} {test : Text} :
    Names entry test ↔ entry.testedBy.any (·.names test) = true := by
  simp [Names]

theorem linksBack_iff {method : Target} {test : Text} :
    linksBack r method test = true ↔ Links r test method ∨ Links r test method.owner := by
  simp only [linksBack, List.any_eq_true, Bool.or_eq_true, beq_iff_eq, Links]
  constructor
  · rintro ⟨link, hlink, h | h⟩
    · exact Or.inl ⟨link, hlink, h⟩
    · exact Or.inr ⟨link, hlink, h⟩
  · rintro (⟨link, hlink, h⟩ | ⟨link, hlink, h⟩)
    · exact ⟨link, hlink, Or.inl h⟩
    · exact ⟨link, hlink, Or.inr h⟩

/-- A back-reference is asked for exactly where a test links a method that names no such test. -/
theorem reports_missingTestedBy {test : Text} {target : Target} :
    Reports r p .missingTestedBy test target ↔
      Links r test target ∧ ∃ entry, p.method? target = some entry ∧ ¬ Names entry test := by
  rw [reports_iff_findings]
  constructor
  · rintro ⟨f, hf, hkind, htest, htarget⟩
    rcases mem_findings.mp hf with ⟨t, link, hlink, hf⟩ |
      ⟨method, entry, -, reference, -, hf⟩ | ⟨t, count, -, rfl⟩
    · obtain ⟨ht, -, hl⟩ := checkLink_place hf
      obtain rfl : t = test := ht.symm.trans htest
      obtain rfl : link.target = target := Option.some.inj (hl.symm.trans htarget)
      refine ⟨⟨link, hlink, rfl⟩, ?_⟩
      cases hm : p.method? link.target with
      | none => simp [kind_of_checkLink hm hf] at hkind
      | some entry =>
        refine ⟨entry, rfl, fun hnames => ?_⟩
        rw [checkLink_of_method? hm, if_pos (names_iff_any.mp hnames)] at hf
        simp at hf
    · rw [checkBackReference_eq] at hf
      split at hf
      · simp [List.mem_singleton.mp hf] at hkind
      · split at hf
        · simp at hf
        · obtain ⟨record, -, rfl⟩ := List.mem_map.mp hf
          simp at hkind
    · simp [duplicate] at hkind
  · rintro ⟨⟨link, hlink, rfl⟩, entry, hm, hnames⟩
    obtain ⟨f, hf, hplace⟩ : ∃ f ∈ checkLink r p test link,
        f.kind = .missingTestedBy ∧ f.test = test ∧ f.target = some link.target := by
      rw [checkLink_of_method? hm, if_neg (by rwa [← names_iff_any])]
      exact ⟨_, List.mem_singleton.mpr rfl, rfl, rfl, rfl⟩
    exact ⟨f, mem_findings.mpr (Or.inl ⟨test, link, hlink, hf⟩), hplace⟩

/-- A link is asked for exactly where a method names a registered test by itself and the test links
neither the method nor its class. -/
theorem reports_missingTestLink {test : Text} {target : Target} :
    Reports r p .missingTestLink test target ↔
      test ∈ r.identifiers ∧ linksBack r target test = false ∧
        ∃ entry, p.method? target = some entry ∧ NamesAlone entry test := by
  rw [reports_iff_findings]
  constructor
  · rintro ⟨f, hf, hkind, htest, htarget⟩
    rcases mem_findings.mp hf with ⟨t, link, -, hf⟩ |
      ⟨method, entry, hentry, reference, hreference, hf⟩ | ⟨t, count, -, rfl⟩
    · cases hm : p.method? link.target with
      | none => simp [kind_of_checkLink hm hf] at hkind
      | some entry =>
        rw [checkLink_of_method? hm] at hf
        split at hf
        · simp at hf
        · simp [List.mem_singleton.mp hf] at hkind
    · rw [checkBackReference_eq] at hf
      split at hf
      · simp [List.mem_singleton.mp hf] at hkind
      · rename_i hmember
        split at hf
        · simp at hf
        · rename_i hsome
          obtain ⟨record, hrecord, rfl⟩ := List.mem_map.mp hf
          obtain rfl : method = target := Option.some.inj htarget
          obtain rfl : record.identifier = test := htest
          obtain ⟨hnamed, hback⟩ := List.mem_filter.mp hrecord
          obtain ⟨hmem, hnames⟩ := List.mem_filter.mp hnamed
          refine ⟨Registry.mem_identifiers.mpr ⟨record, hmem, rfl⟩, by simpa using hback, entry,
            hentry, reference, hreference, ?_, hnames⟩
          simpa [Option.isSome_iff_ne_none] using hsome
    · simp [duplicate] at hkind
  · rintro ⟨htest, hback, entry, hentry, reference, hreference, hmember, hnames⟩
    obtain ⟨record, hmem, rfl⟩ := Registry.mem_identifiers.mp htest
    have hnamed : record ∈ r.named reference := List.mem_filter.mpr ⟨hmem, hnames⟩
    obtain ⟨f, hf, hplace⟩ : ∃ f ∈ checkBackReference r target entry reference,
        f.kind = .missingTestLink ∧ f.test = record.identifier ∧ f.target = some target := by
      rw [checkBackReference_eq, if_neg (List.ne_nil_of_mem hnamed),
        if_neg (by simpa [Option.isSome_iff_ne_none] using hmember)]
      have hsilent : record ∈ (r.named reference).filter
          fun x => !linksBack r target x.identifier :=
        List.mem_filter.mpr ⟨hnamed, by simp [hback]⟩
      exact ⟨_, List.mem_map.mpr ⟨record, hsilent, rfl⟩, rfl, rfl, rfl⟩
    exact ⟨f, mem_findings.mpr
      (Or.inr (Or.inl ⟨target, entry, hentry, reference, hreference, hf⟩)), hplace⟩

/-- Where a link is to be added, none is to be removed for want of a back-reference. -/
theorem not_reports_both {test : Text} {target : Target}
    (h : Reports r p .missingTestLink test target) :
    ¬ Reports r p .missingTestedBy test target := by
  obtain ⟨-, -, entry, hentry, reference, hreference, -, hnames⟩ := reports_missingTestLink.mp h
  intro hno
  obtain ⟨-, entry', hentry', hnot⟩ := reports_missingTestedBy.mp hno
  obtain rfl : entry = entry' := Option.some.inj (hentry.symm.trans hentry')
  exact hnot ⟨reference, hreference, hnames⟩

end Validation

end Crosslink
