import Crosslink.Proofs.Settlement

/-!
# Carrying out a plan settles the report

When links are not pruned, both sides only grow: a plan gives every link its back-reference and
every back-reference its link. What it adds asks for nothing in turn, so that the report afterwards
is the report before without the findings that could be settled.

## Main statements

* `findings_enactAll`: the findings after a plan, in the order in which they come up.
* `validate_enactAll`: the plan and the report after it.
-/

namespace Crosslink

open Validation

section Growth

variable {r : Registry} {p : Production.Index} {options : Policy}

/-- The two sides after the plan for their report. -/
def afterPlan (r : Registry) (p : Production.Index) (options : Policy) : Sides :=
  Sides.enactAll ⟨r, p⟩ (Plan.ofReport r p options (validate r p)).actions

/-- The references that a plan adds to a method. -/
def plannedReferences (r : Registry) (p : Production.Index) (options : Policy)
    (method : Target) : List BackReference :=
  (Plan.ofReport r p options (validate r p)).actions.filterMap (·.referenceFor? method)

/-- The links that a plan adds to a test. -/
def plannedLinks (r : Registry) (p : Production.Index) (options : Policy) (test : Text) :
    List Link :=
  (Plan.ofReport r p options (validate r p)).actions.filterMap (·.addedTo? test)

/-! ## §1 The two sides after a plan -/

@[simp] theorem places_afterPlan : (afterPlan r p options).registry.places = r.places :=
  Sides.places_enactAll _ _

@[simp] theorem identifiers_afterPlan :
    (afterPlan r p options).registry.identifiers = r.identifiers :=
  Registry.identifiers_congr places_afterPlan

@[simp] theorem knowsClass_afterPlan (className : Text) :
    (afterPlan r p options).production.knowsClass className = p.knowsClass className :=
  Sides.knowsClass_enactAll _ _ className

theorem method?_afterPlan (target : Target) :
    (afterPlan r p options).production.method? target =
      (p.method? target).map (·.extend (plannedReferences r p options target)) :=
  Sides.method?_enactAll _ _ target

theorem methods_afterPlan :
    (afterPlan r p options).production.methods =
      p.methods.map fun (t, entry) => (t, entry.extend (plannedReferences r p options t)) :=
  Sides.methods_enactAll _ _

/-- The links of a test after a plan: what is left of those of its first record, then the links
added, then those of its other records. -/
theorem linksOf_afterPlan {test : Text} (h : test ∈ r.identifiers) :
    (afterPlan r p options).registry.linksOf test =
      (r.firstLinks test).filter
          (fun link => !(Plan.ofReport r p options (validate r p)).actions.any
            (·.removes test link.target))
        ++ plannedLinks r p options test ++ r.laterLinks test := by
  rw [Registry.linksOf_eq, afterPlan, Sides.laterLinks_enactAll,
    Sides.firstLinks_enactAll _ _ h, foldl_onLinks]
  · rfl
  · intro link hlink a ha
    exact removes_added hlink ha

/-- What a plan adds to a test links it back to where it was missing. -/
theorem linksBack_of_mem_plannedLinks {test : Text} {target : Target} (h : test ∈ r.identifiers)
    (hreports : Reports r p .missingTestLink test target) :
    linksBack (afterPlan r p options).registry target test = true := by
  refine linksBack_iff.mpr (Or.inl ⟨⟨target, !options.linkOnly⟩, ?_, rfl⟩)
  rw [linksOf_afterPlan h]
  exact List.mem_append_left _ (List.mem_append_right _ (mem_added.mpr ⟨hreports, rfl⟩))

/-- A link that is added has its back-reference. -/
theorem names_of_mem_plannedLinks {test : Text} {link : Link}
    (hlink : link ∈ plannedLinks r p options test) :
    ∃ entry, p.method? link.target = some entry ∧ Names entry test := by
  obtain ⟨-, -, entry, hentry, reference, hmem, -, hnames⟩ :=
    reports_missingTestLink.mp (mem_added.mp hlink).1
  exact ⟨entry, hentry, reference, hmem, hnames⟩

theorem names_extend_of_names {entry : Production.Entry} {test : Text}
    (references : List BackReference) (h : Names entry test) :
    Names (entry.extend references) test := by
  obtain ⟨reference, hmem, hnames⟩ := h
  exact ⟨reference, List.mem_append_left _ hmem, hnames⟩

/-- A link that is added leads to no finding. -/
theorem checkLink_plannedLinks {test : Text} {link : Link}
    (hlink : link ∈ plannedLinks r p options test) :
    checkLink (afterPlan r p options).registry (afterPlan r p options).production test link
      = [] := by
  obtain ⟨entry, hentry, hnames⟩ := names_of_mem_plannedLinks hlink
  rw [checkLink_of_method? (by rw [method?_afterPlan, hentry]; rfl),
    if_pos (names_iff_any.mp (names_extend_of_names _ hnames))]

end Growth

section NoPruning

variable {r : Registry} {p : Production.Index} {options : Policy}
  (hprune : options.prune = false)
  (hnames : ∀ test method, Reports r p .missingTestedBy test method →
    (BackReference.ofIdentifier test).names test = true)

/-! ## §2 Links -/

include hprune in
theorem linksOf_afterPlan_of_keeps {test : Text} (h : test ∈ r.identifiers) :
    (afterPlan r p options).registry.linksOf test =
      r.firstLinks test ++ plannedLinks r p options test ++ r.laterLinks test := by
  have hremoves : ∀ target, (Plan.ofReport r p options (validate r p)).actions.any
      (·.removes test target) = false := by
    intro target
    rw [Bool.eq_false_iff, Ne, any_removes, hprune]
    simp
  rw [linksOf_afterPlan h]
  simp [hremoves]

include hprune hnames in
/-- A link that was there misses its back-reference no more. -/
theorem checkLink_afterPlan {test : Text} {link : Link} (hlink : link ∈ r.linksOf test) :
    checkLink (afterPlan r p options).registry (afterPlan r p options).production test link =
      (checkLink r p test link).filter fun f => !f.kind.canBeSettled := by
  rw [checkLink_congr places_afterPlan]
  cases hm : p.method? link.target with
  | none =>
    have hkept : (checkLink r p test link).filter (fun f => !f.kind.canBeSettled)
        = checkLink r p test link := by
      refine List.filter_eq_self.mpr fun f hf => ?_
      rw [kind_of_checkLink hm hf]
      rfl
    rw [hkept]
    exact checkLink_of_none hm (by rw [method?_afterPlan, hm]; rfl) fun _ => knowsClass_afterPlan _
  | some entry =>
    have hafter : (afterPlan r p options).production.method? link.target
        = some (entry.extend (plannedReferences r p options link.target)) := by
      rw [method?_afterPlan, hm]
      rfl
    have hnamed : Names (entry.extend (plannedReferences r p options link.target)) test := by
      by_cases hold : Names entry test
      · exact names_extend_of_names _ hold
      · have hreports : Reports r p .missingTestedBy test link.target :=
          reports_missingTestedBy.mpr ⟨⟨link, hlink, rfl⟩, entry, hm, hold⟩
        refine ⟨.ofIdentifier test, List.mem_append_right _ ?_, hnames test _ hreports⟩
        exact mem_references.mpr ⟨hprune, test, hreports, rfl⟩
    rw [checkLink_of_method? hafter, if_pos (names_iff_any.mp hnamed), checkLink_of_method? hm]
    split <;> simp [Finding.Kind.canBeSettled]

include hprune hnames in
/-- The findings on links after a plan. -/
theorem linkFindings_afterPlan :
    ((afterPlan r p options).registry.linkView.flatMap fun (test, links) =>
        links.flatMap (checkLink (afterPlan r p options).registry
          (afterPlan r p options).production test)) =
      (r.linkView.flatMap fun (test, links) => links.flatMap (checkLink r p test)).filter
        fun f => !f.kind.canBeSettled := by
  simp only [Registry.linkView, List.flatMap_map, List.filter_flatMap,
    identifiers_afterPlan]
  refine List.flatMap_congr fun test htest => ?_
  have hadded : (plannedLinks r p options test).flatMap
      (checkLink (afterPlan r p options).registry (afterPlan r p options).production test)
        = [] :=
    List.flatMap_eq_nil_iff.mpr fun link hlink => checkLink_plannedLinks hlink
  rw [linksOf_afterPlan_of_keeps hprune htest, List.flatMap_append, List.flatMap_append, hadded,
    List.append_nil, ← List.flatMap_append, ← Registry.linksOf_eq]
  exact List.flatMap_congr fun link hlink => checkLink_afterPlan hprune hnames hlink

/-! ## §3 Back-references -/

include hprune in
/-- A link that was there is still there. -/
theorem linksBack_afterPlan_of_linksBack {method : Target} {test : Text} (h : test ∈ r.identifiers)
    (hback : linksBack r method test = true) :
    linksBack (afterPlan r p options).registry method test = true := by
  obtain ⟨link, hlink, htarget⟩ := List.any_eq_true.mp hback
  refine List.any_eq_true.mpr ⟨link, ?_, htarget⟩
  rw [Registry.linksOf_eq, List.mem_append] at hlink
  rw [linksOf_afterPlan_of_keeps hprune h, List.mem_append, List.mem_append]
  exact hlink.imp_left Or.inl

/-- A reference to a single test names no other. -/
theorem eq_of_names {reference : BackReference} (hmember : reference.member.isSome = true)
    {a b : Text} (ha : reference.names a = true) (hb : reference.names b = true) : a = b := by
  obtain ⟨member, hm⟩ := Option.isSome_iff_exists.mp hmember
  simp only [BackReference.names, BackReference.key, hm, Option.map_some, beq_iff_eq] at ha hb
  exact ha.symm.trans hb

include hprune hnames in
/-- After a plan every test that a method names by itself links it back. -/
theorem linksBack_afterPlan {method : Target} {entry : Production.Entry}
    {reference : BackReference} {test : Text} (hentry : p.method? method = some entry)
    (hmem : reference ∈ entry.testedBy ++ plannedReferences r p options method)
    (hmember : reference.member.isSome = true) (htest : test ∈ r.identifiers)
    (hnamed : reference.names test = true) :
    linksBack (afterPlan r p options).registry method test = true := by
  by_cases hback : linksBack r method test = true
  · exact linksBack_afterPlan_of_linksBack hprune htest hback
  · rcases List.mem_append.mp hmem with hold | hnew
    · refine linksBack_of_mem_plannedLinks htest (reports_missingTestLink.mpr ?_)
      exact ⟨htest, by simpa using hback, entry, hentry, reference, hold, hmember, hnamed⟩
    · -- a reference is added because its test links the method, and it names no other test
      obtain ⟨-, linking, hreports, rfl⟩ := mem_references.mp hnew
      obtain rfl : linking = test := eq_of_names hmember (hnames linking _ hreports) hnamed
      exact absurd (linksBack_iff.mpr (Or.inl (reports_missingTestedBy.mp hreports).1)) hback

include hprune hnames in
/-- After a plan a back-reference can only be an orphan. -/
theorem checkBackReference_afterPlan {method : Target} {entry : Production.Entry}
    {reference : BackReference} (hentry : p.method? method = some entry)
    (hmem : reference ∈ entry.testedBy ++ plannedReferences r p options method) :
    checkBackReference (afterPlan r p options).registry method
        (entry.extend (plannedReferences r p options method)) reference =
      (checkBackReference r method entry reference).filter fun f => !f.kind.canBeSettled := by
  rw [checkBackReference_eq, checkBackReference_eq]
  by_cases horphan : r.named reference = []
  · rw [if_pos horphan,
      if_pos ((Registry.named_eq_nil_congr places_afterPlan reference).mpr horphan)]
    simp [Finding.Kind.canBeSettled]
  · rw [if_neg horphan,
      if_neg (fun h => horphan ((Registry.named_eq_nil_congr places_afterPlan reference).mp h))]
    by_cases hmember : reference.member.isNone = true
    · simp [hmember]
    · rw [if_neg hmember, if_neg hmember]
      have hsilent : ((afterPlan r p options).registry.named reference).filter
          (fun x => !linksBack (afterPlan r p options).registry method x.identifier) = [] := by
        refine List.filter_eq_nil_iff.mpr fun record hrecord => ?_
        obtain ⟨hrecord, hnamed⟩ := List.mem_filter.mp hrecord
        have htest := Registry.mem_identifiers.mpr ⟨record, hrecord, rfl⟩
        rw [identifiers_afterPlan] at htest
        simp [linksBack_afterPlan hprune hnames hentry hmem
          (by simpa [Option.isSome_iff_ne_none] using hmember) htest hnamed]
      rw [hsilent]
      simp [List.filter_map, Function.comp_def, Finding.Kind.canBeSettled]

/-- A reference that a plan adds is no orphan. -/
theorem checkBackReference_plannedReferences
    (hnames : ∀ test method, Reports r p .missingTestedBy test method →
      (BackReference.ofIdentifier test).names test = true)
    {method : Target} {entry : Production.Entry} {reference : BackReference}
    (hmem : reference ∈ plannedReferences r p options method) :
    (checkBackReference r method entry reference).filter (fun f => !f.kind.canBeSettled)
      = [] := by
  obtain ⟨-, test, hreports, rfl⟩ := mem_references.mp hmem
  obtain ⟨link, hlink, -⟩ := (reports_missingTestedBy.mp hreports).1
  have htest := Registry.mem_identifiers_of_mem_linksOf hlink
  obtain ⟨record, hrecord, hid⟩ := Registry.mem_identifiers.mp htest
  have hnamed : record ∈ r.named (.ofIdentifier test) :=
    List.mem_filter.mpr ⟨hrecord, by rw [hid]; exact hnames test _ hreports⟩
  rw [checkBackReference_eq, if_neg (List.ne_nil_of_mem hnamed)]
  simp [BackReference.ofIdentifier, BackReference.ofMember, List.filter_map, Function.comp_def,
    Finding.Kind.canBeSettled]

include hprune hnames in
/-- The findings on back-references after a plan. -/
theorem referenceFindings_afterPlan :
    ((afterPlan r p options).production.methods.flatMap fun (method, entry) =>
        entry.testedBy.flatMap
          (checkBackReference (afterPlan r p options).registry method entry)) =
      (p.methods.flatMap fun (method, entry) =>
        entry.testedBy.flatMap (checkBackReference r method entry)).filter
          fun f => !f.kind.canBeSettled := by
  simp only [methods_afterPlan, List.flatMap_map, List.filter_flatMap]
  refine List.flatMap_congr fun (method, entry) hmethod => ?_
  have hentry := Production.Index.mem_methods.mp hmethod
  calc
    _ = (entry.testedBy ++ plannedReferences r p options method).flatMap fun reference =>
          (checkBackReference r method entry reference).filter
            fun f => !f.kind.canBeSettled :=
      List.flatMap_congr fun reference hmem =>
        checkBackReference_afterPlan hprune hnames hentry hmem
    _ = _ := by
      rw [List.flatMap_append, List.flatMap_eq_nil_iff.mpr fun reference hmem =>
        checkBackReference_plannedReferences hnames hmem, List.append_nil]

/-! ## §4 All findings -/

include hprune hnames in
/-- The findings after a plan are those before it that could not be settled. -/
theorem findings_afterPlan :
    findings (afterPlan r p options).registry (afterPlan r p options).production =
      (findings r p).filter fun f => !f.kind.canBeSettled := by
  rw [findings, linkFindings_afterPlan hprune hnames, referenceFindings_afterPlan hprune hnames,
    findings, List.filter_append, List.filter_append, Registry.duplicates_congr places_afterPlan]
  congr 1
  rw [List.filter_eq_self.mpr]
  · simp only [duplicate, Registry.file_get?_congr places_afterPlan]
  · intro f hf
    obtain ⟨x, -, rfl⟩ := List.mem_map.mp hf
    rfl

include hprune hnames in
/-- The report after a plan is the report before it without what could be settled, if every test
that a method is to name can be named back. -/
theorem validate_afterPlan_of_named :
    validate (afterPlan r p options).registry (afterPlan r p options).production =
      (validate r p).filter fun f => !f.kind.canBeSettled := by
  rw [validate, validate, findings_afterPlan hprune hnames, filter_report]
  intro a b h
  rw [Finding.kind_eq_of_cmp_eq h]

include hprune in
/-- In particular if every registered test can be named back. -/
theorem validate_afterPlan
    (hnames : ∀ test ∈ r.identifiers, (BackReference.ofIdentifier test).names test = true) :
    validate (afterPlan r p options).registry (afterPlan r p options).production =
      (validate r p).filter fun f => !f.kind.canBeSettled := by
  refine validate_afterPlan_of_named hprune fun test method hreports => ?_
  obtain ⟨link, hlink, -⟩ := (reports_missingTestedBy.mp hreports).1
  exact hnames test (Registry.mem_identifiers_of_mem_linksOf hlink)

end NoPruning

/-! ## §5 The plan and the report after it -/

/-- **A plan settles its report.** When every registered test can be named back and links are not
pruned, a plan has one action for every finding that can be settled, in the order of the report,
and none for the others; and the report after it is the report before it without the findings that
could be settled. -/
theorem validate_enactAll_plan (r : Registry) (p : Production.Index) (options : Policy)
    (hprune : options.prune = false)
    (hnames : ∀ record ∈ r.records,
      (BackReference.ofIdentifier record.identifier).names record.identifier = true) :
    List.Forall₂ (Settles r p options) ((validate r p).filter (·.kind.canBeSettled))
        (Plan.ofReport r p options (validate r p)).actions ∧
      let after := Sides.enactAll ⟨r, p⟩ (Plan.ofReport r p options (validate r p)).actions
      validate after.registry after.production =
        (validate r p).filter fun f => !f.kind.canBeSettled := by
  refine ⟨forall₂_settles r p options, validate_afterPlan hprune fun test htest => ?_⟩
  obtain ⟨record, hrecord, rfl⟩ := Registry.mem_identifiers.mp htest
  exact hnames record hrecord

/-- A record for examples: a test of the container `T`. -/
def recordOf (file member : Text) (links : List Link) : RegisteredTest :=
  ⟨⟨file⟩, "phpunit", ⟨member, "T::" ++ member, ⟨0, 1⟩, 0, links, .attributeList⟩⟩

/-- An index for examples: the class `A` with the methods `f` and `g`, of which only `g` names a
test. -/
def indexOf (names : List BackReference) : Production.Index :=
  ⟨[("a.php", ⟨"A", [⟨"f", ⟨0, 1⟩, []⟩, ⟨"g", ⟨2, 3⟩, names⟩]⟩)]⟩

/-- Two records of one test, the second of which links `A::f`, and a reference of `A::g` to it:
both findings are settled, and the test stays repeated. -/
theorem validate_enactAll_plan_repeated :
    let r : Registry :=
      ⟨[recordOf "a/T.php" "t" [], recordOf "b/T.php" "t" [⟨⟨"A", some "f"⟩, true⟩]]⟩
    let p := indexOf [⟨"T", some "t"⟩]
    let plan := Plan.ofReport r p {} (validate r p)
    let after := Sides.enactAll ⟨r, p⟩ plan.actions
    (∀ record ∈ r.records,
      (BackReference.ofIdentifier record.identifier).names record.identifier = true) ∧
    List.Forall₂ (Settles r p {}) ((validate r p).filter (·.kind.canBeSettled)) plan.actions ∧
    validate after.registry after.production =
      (validate r p).filter fun f => !f.kind.canBeSettled := by
  intro r p plan after
  have hnames : ∀ record ∈ r.records,
      (BackReference.ofIdentifier record.identifier).names record.identifier = true := by
    decide
  exact ⟨hnames, validate_enactAll_plan r p {} rfl hnames⟩

end Crosslink
