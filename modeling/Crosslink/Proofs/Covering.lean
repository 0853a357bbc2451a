import Crosslink.Coverage
import Crosslink.Proofs.Repetitions
import Crosslink.Proofs.Views

/-!
# What the coverage map holds

The map has an entry for every production method, in the order of their targets. An entry merges the
tests that link the method with those that link its class: a test that links both is there once, and
covers the method as soon as one of its links to either does, in whichever of its records that link
stands. The map of some methods is the part of the whole map that is about them.

* §1 `mem_linkingTests`, `covers_of_mem_linkingTests`: the tests of one entry.
* §2 `coverage_exact`: the entries.
-/

namespace Crosslink

/-- A record of a test with a link to a method or to the class of it. -/
def LinkedBy (r : Registry) (method : Target) (test : Text) (link : Link) : Prop :=
  (link.target = method ∨ link.target = method.owner) ∧
    ∃ record ∈ r.records, record.identifier = test ∧ link ∈ record.links

namespace Coverage

variable {r : Registry} {method : Target} {test : Text} {t : LinkedTest}

/-! ## §1 The tests of an entry -/

theorem covers_iff {target : Target} : covers r target test = true ↔
    ∃ link ∈ r.linksOf test, link.target = target ∧ link.covers = true := by
  simp [covers]

theorem map_test_linkingTests (r : Registry) (method : Target) :
    (linkingTests r method).map LinkedTest.test =
      sortedSet (r.testsLinking method ++ r.testsLinking method.owner) := by
  rw [linkingTests, List.map_map]
  exact List.map_id _

/-- The tests of an entry are those with a link to the method or its class. -/
theorem mem_linkingTests : test ∈ (linkingTests r method).map LinkedTest.test ↔
    ∃ link, LinkedBy r method test link := by
  rw [map_test_linkingTests, mem_sortedSet, List.mem_append, Registry.mem_testsLinking,
    Registry.mem_testsLinking]
  constructor
  · rintro (⟨record, hrecord, hid, link, hlink, htarget⟩ | ⟨record, hrecord, hid, link, hlink, htarget⟩)
    · exact ⟨link, .inl htarget, record, hrecord, hid, hlink⟩
    · exact ⟨link, .inr htarget, record, hrecord, hid, hlink⟩
  · rintro ⟨link, htarget | htarget, record, hrecord, hid, hlink⟩
    · exact .inl ⟨record, hrecord, hid, link, hlink, htarget⟩
    · exact .inr ⟨record, hrecord, hid, link, hlink, htarget⟩

/-- A test of an entry covers the method when one of these links does. -/
theorem covers_of_mem_linkingTests (h : t ∈ linkingTests r method) :
    t.covers = true ↔ ∃ link, LinkedBy r method t.test link ∧ link.covers = true := by
  obtain ⟨test, -, rfl⟩ := List.mem_map.mp h
  rw [Bool.or_eq_true, covers_iff, covers_iff]
  simp only [Validation.mem_linksOf]
  constructor
  · rintro (⟨link, hmem, htarget, hcovers⟩ | ⟨link, hmem, htarget, hcovers⟩)
    · exact ⟨link, ⟨.inl htarget, hmem⟩, hcovers⟩
    · exact ⟨link, ⟨.inr htarget, hmem⟩, hcovers⟩
  · rintro ⟨link, ⟨htarget | htarget, hmem⟩, hcovers⟩
    · exact .inl ⟨link, hmem, htarget, hcovers⟩
    · exact .inr ⟨link, hmem, htarget, hcovers⟩

end Coverage

/-! ## §2 The entries of the map -/

namespace Production.Index

/-- The methods are those that are declared, each once and in order. -/
theorem map_fst_methods (p : Index) :
    p.methods.map Prod.fst = sortedSet (p.declarations.map Prod.fst) := by
  have hknown : ∀ t ∈ sortedSet (p.declarations.map Prod.fst), ∃ entry, p.method? t = some entry := by
    intro t ht
    obtain ⟨⟨t, entry⟩, hmem, rfl⟩ := List.mem_map.mp (mem_sortedSet.mp ht)
    refine Option.ne_none_iff_exists'.mp fun hnone => ?_
    have hne := List.lookup_eq_none_iff.mp hnone _ (List.mem_reverse.mpr hmem)
    simp at hne
  rw [methods, List.map_filterMap]
  generalize sortedSet (p.declarations.map Prod.fst) = targets at hknown
  induction targets with
  | nil => rfl
  | cons t rest ih =>
    obtain ⟨entry, hentry⟩ := hknown t List.mem_cons_self
    rw [List.filterMap_cons, hentry]
    exact congrArg (t :: ·) (ih fun u hu => hknown u (List.mem_cons_of_mem t hu))

end Production.Index

open Coverage

variable {r : Registry} {p : Production.Index}

/-- The whole map leaves no method out. -/
theorem coverage_none (r : Registry) (p : Production.Index) :
    coverage r p none = p.methods.map fun (method, known) => entry r method known := by
  have hall : (p.methods.filter fun (method, _) => asksFor none method) = p.methods :=
    List.filter_eq_self.mpr fun _ _ => rfl
  rw [coverage, hall]

/-- An entry of the whole map says of its method what the index and the registry know. -/
theorem exists_of_mem_coverage {e : MethodCoverage} (h : e ∈ coverage r p none) :
    ∃ known, p.method? e.method = some known ∧ e = entry r e.method known := by
  rw [coverage_none] at h
  obtain ⟨⟨method, known⟩, hmem, rfl⟩ := List.mem_map.mp h
  exact ⟨known, Production.Index.mem_methods.mp hmem, rfl⟩

theorem map_method_coverage (r : Registry) (p : Production.Index) :
    (coverage r p none).map MethodCoverage.method = sortedSet (p.declarations.map Prod.fst) := by
  rw [coverage_none, List.map_map, ← Production.Index.map_fst_methods]
  rfl

/-- The map of what a target asks for is that part of the whole map. -/
theorem coverage_some (r : Registry) (p : Production.Index) (o : Target) :
    coverage r p (some o) = (coverage r p none).filter fun e => asksFor (some o) e.method := by
  rw [coverage_none, coverage, List.filter_map]
  rfl

/-- **The coverage map is exact.** It has one entry for each production method, in order. The tests of
an entry are in order, each once, and they are those with a link to the method or to its class in one
of their records; a test covers the method when one of these links does. The map of what a target
asks for has the entries of the whole map that are about the target or, for a class, about its
methods. -/
theorem coverage_exact (r : Registry) (p : Production.Index) :
    ((coverage r p none).map MethodCoverage.method).Pairwise (fun a b => compare a b = .lt) ∧
    (∀ method, method ∈ (coverage r p none).map MethodCoverage.method ↔
      ∃ known, (method, known) ∈ p.declarations) ∧
    (∀ e ∈ coverage r p none,
      (∃ known, p.method? e.method = some known ∧ e.file = known.file ∧
        e.testedBy = known.testedBy.map BackReference.display) ∧
      (e.tests.map LinkedTest.test).Pairwise (fun a b => compare a b = .lt) ∧
      (∀ test, test ∈ e.tests.map LinkedTest.test ↔ ∃ link, LinkedBy r e.method test link) ∧
      ∀ t ∈ e.tests,
        (t.covers = true ↔ ∃ link, LinkedBy r e.method t.test link ∧ link.covers = true)) ∧
    ∀ o : Target, coverage r p (some o) = (coverage r p none).filter fun e =>
      e.method = o ∨ (o.method = none ∧ o.className = e.method.className) := by
  refine ⟨?_, fun method => ?_, fun e he => ?_, fun o => ?_⟩
  · rw [map_method_coverage]
    exact sorted_sortedSet _
  · rw [map_method_coverage, mem_sortedSet, List.mem_map]
    constructor
    · rintro ⟨⟨_, known⟩, hmem, rfl⟩
      exact ⟨known, hmem⟩
    · rintro ⟨known, hmem⟩
      exact ⟨(method, known), hmem, rfl⟩
  · obtain ⟨known, hknown, heq⟩ := exists_of_mem_coverage he
    have htests : e.tests = linkingTests r e.method := by rw [heq]; rfl
    refine ⟨⟨known, hknown, by rw [heq]; rfl, by rw [heq]; rfl⟩, ?_, fun test => ?_, fun t ht => ?_⟩
    · rw [htests, map_test_linkingTests]
      exact sorted_sortedSet _
    · rw [htests]
      exact mem_linkingTests
    · rw [htests] at ht
      exact covers_of_mem_linkingTests ht
  · rw [coverage_some]
    refine List.filter_congr fun e _ => ?_
    rw [asksFor, Bool.eq_iff_iff, Bool.or_eq_true, Bool.and_eq_true, beq_iff_eq, beq_iff_eq,
      decide_eq_true_eq, eq_comm, Target.isClass, Option.isNone_iff_eq_none]

/-- A test with two records, one linking the method and one covering its class, stands in the entry
once, and covers the method. -/
example :
    coverage
      ⟨[⟨⟨"a"⟩, "pest", ⟨"t", "A::t", ⟨0, 1⟩, 1, [⟨⟨"C", some "m"⟩, false⟩], .fluentChain⟩⟩,
        ⟨⟨"b"⟩, "pest", ⟨"t", "A::t", ⟨0, 1⟩, 1, [⟨⟨"C", none⟩, true⟩], .fluentChain⟩⟩]⟩
      ⟨[(⟨"s"⟩, ⟨"C", [⟨"m", ⟨0, 1⟩, []⟩]⟩)]⟩ none =
      [⟨⟨"C", some "m"⟩, ⟨"s"⟩, [⟨"A::t", true⟩], []⟩] := by
  cbv

end Crosslink
