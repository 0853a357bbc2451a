import Mathlib.Data.List.Sort
import Crosslink.Proofs.Covering

/-!
# The order in which tests are found

Records are kept in the order in which they were found, and the first record of a test, the records
that a back-reference names and the links of a test are all looked up along that order. None of it
shows, as long as the records of each test are found in one order among themselves
(`Registry.SameRecords`): what is asked about one test looks at its records only, and what is told of
all tests is sorted. A report is sorted by a stable sort, so it is settled by what comes up at each
place of its order; and one place of the order is about one test.

When no test has two records, any two orders are such orders.

* §1 `report_eq_of_filter`: when two lists of findings make up the same report.
* §2 What a registry says of one test, and of all tests.
* §3 `filter_findings`: what a validation comes to at one place of the order.
* §4 `same_answers_of_perm`: the report, the plans and the coverage maps.
-/

namespace Crosslink

/-! ## §1 Reports -/

/-- Sorted lists of findings are the same when at each place of the order they hold the same findings,
in the same order. -/
theorem eq_of_filter_cmp {fs gs : List Finding}
    (hfs : fs.Pairwise fun f g => (f.cmp g).isLE = true)
    (hgs : gs.Pairwise fun f g => (f.cmp g).isLE = true)
    (h : ∀ a : Finding, fs.filter (fun f => a.cmp f == .eq) = gs.filter fun f => a.cmp f == .eq) :
    fs = gs := by
  have hself : ∀ a : Finding, a.cmp a = .eq := fun a => Std.ReflCmp.compare_self
  induction fs generalizing gs with
  | nil =>
    cases gs with
    | nil => rfl
    | cons b gs => simpa [hself] using h b
  | cons a fs ih =>
    cases gs with
    | nil => simpa [hself] using h a
    | cons b gs =>
      obtain ⟨hafs, hfs'⟩ := List.pairwise_cons.mp hfs
      obtain ⟨hbgs, hgs'⟩ := List.pairwise_cons.mp hgs
      -- Either head stands in the other list, so neither comes before the other.
      have hab : (a.cmp b).isLE = true := by
        have hmem : b ∈ (a :: fs).filter fun f => b.cmp f == .eq := by
          rw [h b]
          simp [hself]
        rcases List.mem_cons.mp (List.mem_filter.mp hmem).1 with rfl | hmem
        · exact Finding.cmp_refl b
        · exact hafs b hmem
      have hba : (b.cmp a).isLE = true := by
        have hmem : a ∈ (b :: gs).filter fun f => a.cmp f == .eq := by
          rw [← h a]
          simp [hself]
        rcases List.mem_cons.mp (List.mem_filter.mp hmem).1 with rfl | hmem
        · exact Finding.cmp_refl a
        · exact hbgs a hmem
      have heq : a.cmp b = .eq := Std.OrientedCmp.isLE_antisymm hab hba
      have hheads := h a
      rw [List.filter_cons, List.filter_cons, if_pos (by simp [hself]), if_pos (by simp [heq])]
        at hheads
      obtain ⟨rfl, -⟩ := List.cons.inj hheads
      refine congrArg (a :: ·) (ih hfs' hgs' fun c => ?_)
      have hc := h c
      rw [List.filter_cons, List.filter_cons] at hc
      split at hc
      · exact (List.cons.inj hc).2
      · exact hc

/-- A report is settled by what comes up at each place of its order. -/
theorem report_eq_of_filter {fs gs : List Finding}
    (h : ∀ a : Finding, fs.filter (fun f => a.cmp f == .eq) = gs.filter fun f => a.cmp f == .eq) :
    report fs = report gs := by
  have hsorted := List.pairwise_mergeSort Finding.cmp_trans Finding.cmp_total
  rw [report, report, eq_of_filter_cmp (hsorted fs) (hsorted gs) fun a => by
    rw [filter_cmp_mergeSort, filter_cmp_mergeSort, h a]]

/-- A sorted set is settled by what is in it. -/
theorem sortedSet_eq_of_mem_iff {α : Type} [Ord α] [DecidableEq α] [Std.TransOrd α]
    [Std.LawfulEqOrd α] {l l' : List α} (h : ∀ x, x ∈ l ↔ x ∈ l') : sortedSet l = sortedSet l' := by
  have hirrefl : Std.Irrefl fun a b : α => compare a b = .lt := by
    refine ⟨fun a ha => ?_⟩
    rw [Std.ReflOrd.compare_self] at ha
    cases ha
  have hantisymm : Std.Antisymm fun a b : α => compare a b = .lt := by
    refine ⟨fun a b hab hba => ?_⟩
    rw [Std.OrientedOrd.eq_swap, hba] at hab
    cases hab
  refine List.Pairwise.eq_of_mem_iff (sorted_sortedSet l) (sorted_sortedSet l') fun x => ?_
  rw [mem_sortedSet, mem_sortedSet, h]

/-! ## §2 Registries -/

namespace Registry

/-- The records of a test, in the order in which they were found. -/
def recordsOf (r : Registry) (test : Text) : List RegisteredTest :=
  r.records.filter (·.identifier == test)

/-- Registries that hold the same records of each test, in the same order; the records of different
tests may come in any order. -/
def SameRecords (r s : Registry) : Prop := ∀ test, r.recordsOf test = s.recordsOf test

variable {r s : Registry}

theorem mem_recordsOf {test : Text} {record : RegisteredTest} :
    record ∈ r.recordsOf test ↔ record ∈ r.records ∧ record.identifier = test := by
  rw [recordsOf, List.mem_filter, beq_iff_eq]

/-- Where no test has two records, any order of the records is as good as another. -/
theorem sameRecords_of_perm (hdistinct : (r.records.map RegisteredTest.identifier).Nodup)
    (hperm : r.records.Perm s.records) : SameRecords r s := by
  intro test
  have hone : (r.recordsOf test).length ≤ 1 := by
    have hcount := List.nodup_iff_count.mp hdistinct test
    rwa [List.count, List.countP_map, List.countP_eq_length_filter] at hcount
  have hfilter : (r.recordsOf test).Perm (s.recordsOf test) := hperm.filter _
  match hr : r.recordsOf test, hone with
  | [], _ =>
    rw [hr] at hfilter
    exact hfilter.nil_eq
  | [record], _ =>
    rw [hr] at hfilter
    exact hfilter.singleton_eq

section Same

variable (h : SameRecords r s)
include h

theorem SameRecords.mem {record : RegisteredTest} : record ∈ r.records ↔ record ∈ s.records := by
  have hmem : record ∈ r.recordsOf record.identifier ↔ record ∈ s.recordsOf record.identifier := by
    rw [h]
  simpa [mem_recordsOf] using hmem

theorem SameRecords.get? (test : Text) : r.get? test = s.get? test := by
  have hrecords := h test
  rw [recordsOf, recordsOf] at hrecords
  rw [Registry.get?, Registry.get?, ← List.head?_filter, ← List.head?_filter, hrecords]

theorem SameRecords.linksOf (test : Text) : r.linksOf test = s.linksOf test :=
  congrArg (List.flatMap RegisteredTest.links) (h test)

theorem SameRecords.identifiers : r.identifiers = s.identifiers := by
  refine sortedSet_eq_of_mem_iff fun test => ?_
  rw [List.mem_map, List.mem_map]
  simp only [h.mem]

theorem SameRecords.linkView : r.linkView = s.linkView := by
  rw [Registry.linkView, Registry.linkView, h.identifiers]
  exact List.map_congr_left fun test _ => congrArg (Prod.mk test) (h.linksOf test)

theorem SameRecords.duplicates : r.duplicates = s.duplicates := by
  have hcount : ∀ test, r.records.countP (·.identifier == test) =
      s.records.countP (·.identifier == test) := by
    intro test
    rw [List.countP_eq_length_filter, List.countP_eq_length_filter]
    exact congrArg List.length (h test)
  rw [Registry.duplicates, Registry.duplicates, h.identifiers]
  simp only [hcount]

/-- The tests that link a target are the same, and they are told in order. -/
theorem SameRecords.testsLinking (target : Target) : r.testsLinking target = s.testsLinking target := by
  refine sortedSet_eq_of_mem_iff fun test => ?_
  rw [List.mem_map, List.mem_map]
  simp only [List.mem_filter, h.mem]

theorem SameRecords.named_eq_nil_iff (reference : BackReference) :
    r.named reference = [] ↔ s.named reference = [] := by
  rw [named, named, List.filter_eq_nil_iff, List.filter_eq_nil_iff]
  simp only [h.mem]

end Same

end Registry

/-! ## §3 Findings -/

namespace Validation

variable {r s : Registry} {p : Production.Index} (h : Registry.SameRecords r s)
include h

theorem checkLink_of_sameRecords (p : Production.Index) (test : Text) (link : Link) :
    checkLink r p test link = checkLink s p test link := by
  rw [checkLink, checkLink, h.get?]

theorem linksBack_of_sameRecords (method : Target) (test : Text) :
    linksBack r method test = linksBack s method test := by
  rw [linksBack, linksBack, h.linksOf]

/-- What a back-reference comes to at one place of the order is about one test, so that it is the same
for registries with the same records of that test. -/
theorem filter_checkBackReference (method : Target) (entry : Production.Entry)
    (reference : BackReference) (a : Finding) :
    (checkBackReference r method entry reference).filter (fun f => a.cmp f == .eq) =
      (checkBackReference s method entry reference).filter fun f => a.cmp f == .eq := by
  let ask : RegisteredTest → Finding := fun x => ⟨.missingTestLink, some method, x.identifier,
    some x.file, method.canonical ++ " names " ++ x.identifier ++ " but the test does not link it"⟩
  -- The findings of that place are those on the records of its test.
  have hplace : ∀ t : Registry,
      (((t.named reference).filter fun x => !linksBack t method x.identifier).map ask).filter
          (fun f => a.cmp f == .eq) =
        ((t.recordsOf a.test).filter fun x => a.cmp (ask x) == .eq && (!linksBack t method x.identifier
          && reference.names x.identifier)).map ask := by
    intro t
    rw [List.filter_map, Registry.named, Registry.recordsOf, List.filter_filter, List.filter_filter,
      List.filter_filter]
    refine congrArg (List.map ask) (List.filter_congr fun x _ => ?_)
    by_cases hcmp : a.cmp (ask x) = .eq
    · have htest : x.identifier = a.test := (Finding.test_eq_of_cmp_eq hcmp).symm
      simp [hcmp, htest]
    · simp [beq_eq_false_iff_ne.mpr hcmp]
  rw [checkBackReference_eq, checkBackReference_eq]
  by_cases horphan : r.named reference = []
  · rw [if_pos horphan, if_pos ((h.named_eq_nil_iff reference).mp horphan)]
  · rw [if_neg horphan, if_neg fun hs => horphan ((h.named_eq_nil_iff reference).mpr hs)]
    by_cases hmember : reference.member.isNone = true
    · rw [if_pos hmember, if_pos hmember]
    · rw [if_neg hmember, if_neg hmember, hplace r, hplace s, h]
      simp only [linksBack_of_sameRecords h]

/-- What a validation comes to at one place of the order. -/
theorem filter_findings (p : Production.Index) (a : Finding) :
    (findings r p).filter (fun f => a.cmp f == .eq) =
      (findings s p).filter fun f => a.cmp f == .eq := by
  have hlink : ∀ test, checkLink r p test = checkLink s p test := fun test =>
    funext fun link => checkLink_of_sameRecords h p test link
  have hduplicate : ∀ test count, duplicate r test count = duplicate s test count := by
    intro test count
    simp only [duplicate, h.get?]
  simp only [findings, h.linkView, hlink, h.duplicates, hduplicate, List.filter_append,
    List.filter_flatMap, filter_checkBackReference h]

end Validation

/-! ## §4 What is told of a project -/

namespace Coverage

theorem linkingTests_of_sameRecords {r s : Registry} (h : r.SameRecords s) (method : Target) :
    linkingTests r method = linkingTests s method := by
  simp only [linkingTests, covers, h.testsLinking, h.linksOf]

end Coverage

section Answers

variable {r s : Registry} (h : r.SameRecords s)
include h

theorem validate_of_sameRecords (p : Production.Index) : validate r p = validate s p :=
  report_eq_of_filter fun a => Validation.filter_findings h p a

theorem ofReport_of_sameRecords (p : Production.Index) (options : Policy) (findings : List Finding) :
    Plan.ofReport r p options findings = Plan.ofReport s p options findings := by
  simp only [Plan.ofReport, funext fun f => show Plan.settle r p options f = Plan.settle s p options f by
    simp only [Plan.settle, h.get?]]

theorem coverage_of_sameRecords (p : Production.Index) (only : Option Target) :
    coverage r p only = coverage s p only := by
  simp only [coverage, Coverage.entry, Coverage.linkingTests_of_sameRecords h]

end Answers

/-- **Without repeated tests the order of the scan does not show.** Registries with the same records in
any two orders, no two records of one test among them, give the same report, the same plan for every
list of findings and every policy, and the same coverage map for everything that may be asked for. -/
theorem same_answers_of_perm {records records' : List RegisteredTest}
    (hdistinct : (records.map RegisteredTest.identifier).Nodup) (hperm : records.Perm records')
    (p : Production.Index) :
    validate ⟨records⟩ p = validate ⟨records'⟩ p ∧
    (∀ options findings, Plan.ofReport ⟨records⟩ p options findings =
      Plan.ofReport ⟨records'⟩ p options findings) ∧
    ∀ only, coverage ⟨records⟩ p only = coverage ⟨records'⟩ p only := by
  have hsame : Registry.SameRecords ⟨records⟩ ⟨records'⟩ :=
    Registry.sameRecords_of_perm hdistinct hperm
  exact ⟨validate_of_sameRecords hsame p, ofReport_of_sameRecords hsame p,
    coverage_of_sameRecords hsame p⟩

/-- Two tests found in one order and in the other, with findings of four kinds: a link that is not
answered and one that dangles, a link that a method asks for twice, and a reference to no test. -/
theorem same_answers_of_perm_turned :
    let found := [recordOf "b/T.php" "b" [],
      recordOf "a/T.php" "a" [⟨⟨"A", some "g"⟩, true⟩, ⟨⟨"B", none⟩, false⟩]]
    let p := indexOf [⟨"T", some "b"⟩, ⟨"T", some "b"⟩, ⟨"T", some "c"⟩]
    (found.map RegisteredTest.identifier).Nodup ∧ found.Perm found.reverse ∧
    validate ⟨found⟩ p = validate ⟨found.reverse⟩ p ∧
    (∀ options findings, Plan.ofReport ⟨found⟩ p options findings =
      Plan.ofReport ⟨found.reverse⟩ p options findings) ∧
    ∀ only, coverage ⟨found⟩ p only = coverage ⟨found.reverse⟩ p only := by
  intro found p
  have hdistinct : (found.map RegisteredTest.identifier).Nodup := by decide
  have hperm : found.Perm found.reverse := found.reverse_perm.symm
  exact ⟨hdistinct, hperm, same_answers_of_perm hdistinct hperm p⟩

/-- With two records of one test the order shows: the report tells the file of the first. -/
example :
    (validate ⟨[recordOf "a/T.php" "t" [], recordOf "b/T.php" "t" []]⟩ {}).map Finding.file =
        [some ⟨"a/T.php"⟩] ∧
      (validate ⟨[recordOf "b/T.php" "t" [], recordOf "a/T.php" "t" []]⟩ {}).map Finding.file =
        [some ⟨"b/T.php"⟩] := by
  constructor <;> cbv

end Crosslink
