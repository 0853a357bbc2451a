import Mathlib.Data.List.Basic
import Crosslink.Registry.Cached
import Crosslink.Proofs.Agreement

/-!
# Views that are kept

A registry with kept views answers every request as one that works everything out anew. What makes
it so is that a view is kept only as long as the records are those it was worked out from
(`CachedRegistry.Fresh`): a reading fills in the view of the records as they are, and adding a record
drops both views.

The two views show one relation from its two sides: the links of a test, and the tests of a target.

* §1 What the views of a registry show.
* §2 `fresh_answer`, what one request leads to.
* §3 `answer_run`, what any number of them leads to.
-/

namespace Crosslink

/-! ## §1 The views of a registry -/

namespace Registry

variable {r : Registry} {test : Text} {target : Target}

/-- The tests of a target are those that declare it. -/
theorem mem_testsLinking : test ∈ r.testsLinking target ↔
    ∃ record ∈ r.records, record.identifier = test ∧
      ∃ link ∈ record.links, link.target = target := by
  rw [testsLinking, mem_sortedSet, List.mem_map]
  constructor
  · rintro ⟨record, hrecord, rfl⟩
    obtain ⟨hmem, hdeclares⟩ := List.mem_filter.mp hrecord
    refine ⟨record, hmem, rfl, ?_⟩
    simpa [TestCase.declares, RegisteredTest.links] using hdeclares
  · rintro ⟨record, hmem, rfl, link, hlink, htarget⟩
    refine ⟨record, List.mem_filter.mpr ⟨hmem, ?_⟩, rfl⟩
    simp only [TestCase.declares, List.any_eq_true, beq_iff_eq]
    exact ⟨link, hlink, htarget⟩

/-- A test is among those of a target exactly when it has a link to the target. -/
theorem mem_testsLinking_iff_linksOf :
    test ∈ r.testsLinking target ↔ ∃ link ∈ r.linksOf test, link.target = target := by
  rw [mem_testsLinking]
  simp only [Validation.mem_linksOf]
  constructor
  · rintro ⟨record, hmem, hid, link, hlink, htarget⟩
    exact ⟨link, ⟨record, hmem, hid, hlink⟩, htarget⟩
  · rintro ⟨link, ⟨record, hmem, hid, hlink⟩, htarget⟩
    exact ⟨record, hmem, hid, link, hlink, htarget⟩

theorem contains_iff_get? : r.contains test = true ↔ ∃ record, r.get? test = some record := by
  rw [← Option.isSome_iff_exists, get?, List.find?_isSome, contains, List.any_eq_true]

/-- A test that is not registered has no links. -/
theorem linksOf_eq_nil (h : test ∉ r.identifiers) : r.linksOf test = [] :=
  List.eq_nil_iff_forall_not_mem.mpr fun _ hlink => h (mem_identifiers_of_mem_linksOf hlink)

/-- A target that no link names has no tests. -/
theorem testsLinking_eq_nil (h : target ∉ r.targets) : r.testsLinking target = [] := by
  refine List.eq_nil_iff_forall_not_mem.mpr fun test htest => h ?_
  obtain ⟨record, hmem, -, link, hlink, htarget⟩ := mem_testsLinking.mp htest
  rw [targets, mem_sortedSet]
  exact List.mem_map.mpr ⟨link, List.mem_flatMap.mpr ⟨record, hmem, hlink⟩, htarget⟩

/-- What is found for a key among keys with their values, when a key that is not among them has
none. -/
theorem lookup_view {α β : Type} [BEq α] [LawfulBEq α] {keys : List α} {value : α → List β} {key : α}
    (h : key ∉ keys → value key = []) :
    ((keys.map fun k => (k, value k)).lookup key).getD [] = value key := by
  by_cases hkey : key ∈ keys
  · rw [List.lookup_graph value hkey]
    rfl
  · have hnone : (keys.map fun k => (k, value k)).lookup key = none := by
      refine List.lookup_eq_none_iff.mpr fun p hp => ?_
      obtain ⟨k, hk, rfl⟩ := List.mem_map.mp hp
      rw [bne_iff_ne]
      rintro rfl
      exact hkey hk
    rw [hnone, h hkey]
    rfl

/-- The links of a test are what the view of all links shows for it. -/
theorem lookup_linkView (r : Registry) (test : Text) :
    (r.linkView.lookup test).getD [] = r.linksOf test :=
  lookup_view linksOf_eq_nil

/-- The tests of a target are what the view of all tests shows for it. -/
theorem lookup_testView (r : Registry) (target : Target) :
    (r.testView.lookup target).getD [] = r.testsLinking target :=
  lookup_view testsLinking_eq_nil

/-- The view of all links shows every test that is registered. -/
theorem any_linkView (r : Registry) (test : Text) :
    (r.linkView.any fun p => p.1 == test) = r.contains test := by
  rw [Bool.eq_iff_iff, contains, List.any_eq_true, List.any_eq_true, linkView]
  constructor
  · rintro ⟨p, hp, heq⟩
    obtain ⟨i, hi, rfl⟩ := List.mem_map.mp hp
    obtain ⟨record, hmem, rfl⟩ := mem_identifiers.mp hi
    exact ⟨record, hmem, heq⟩
  · rintro ⟨record, hmem, heq⟩
    exact ⟨_, List.mem_map.mpr ⟨_, mem_identifiers.mpr ⟨record, hmem, rfl⟩, rfl⟩, heq⟩

end Registry

/-! ## §2 Requests -/

/-- What a registry is asked to do. -/
inductive Request where
  /-- Take in one more test. -/
  | insert (record : RegisteredTest)
  /-- Show the links of every test. -/
  | linkView
  /-- Show the tests of every target. -/
  | testView
  /-- Tell whether there is a record of a test. -/
  | contains (test : Text)
  /-- Show the links of a test. -/
  | linksOf (test : Text)
  /-- Show the tests that link a target. -/
  | testsLinking (target : Target)

/-- What a request is answered with. -/
inductive Reply where
  | done
  | linkView (view : List (Text × List Link))
  | testView (view : List (Target × List Text))
  | contains (found : Bool)
  | linksOf (links : List Link)
  | testsLinking (tests : List Text)
  deriving DecidableEq

/-- The answer that is worked out from the records alone. -/
def Registry.answer (r : Registry) : Request → Reply
  | .insert _ => .done
  | .linkView => .linkView r.linkView
  | .testView => .testView r.testView
  | .contains test => .contains (r.contains test)
  | .linksOf test => .linksOf (r.linksOf test)
  | .testsLinking target => .testsLinking (r.testsLinking target)

/-- The registry after a request. -/
def Registry.afterRequest (r : Registry) : Request → Registry
  | .insert record => r.insert record
  | _ => r

namespace CachedRegistry

/-- The answer of a registry with kept views, and the registry afterwards. -/
def answer (c : CachedRegistry) : Request → Reply × CachedRegistry
  | .insert record => (.done, c.insert record)
  | .linkView => (.linkView c.linkView.1, c.linkView.2)
  | .testView => (.testView c.testView.1, c.testView.2)
  | .contains test => (.contains (c.contains test).1, (c.contains test).2)
  | .linksOf test => (.linksOf (c.linksOf test).1, (c.linksOf test).2)
  | .testsLinking target => (.testsLinking (c.testsLinking target).1, (c.testsLinking target).2)

/-- The views that are kept are those of the records. -/
structure Fresh (c : CachedRegistry) : Prop where
  links : ∀ view, c.links? = some view → view = c.registry.linkView
  tests : ∀ view, c.tests? = some view → view = c.registry.testView

variable {c : CachedRegistry}

/-- A registry that keeps no view, as it is at first and after a record has been added. -/
theorem fresh_bare (registry : Registry) : Fresh { registry } := ⟨nofun, nofun⟩

theorem Fresh.linkView (h : c.Fresh) :
    c.linkView.1 = c.registry.linkView ∧ c.linkView.2.registry = c.registry ∧
      c.linkView.2.Fresh := by
  unfold CachedRegistry.linkView
  cases hkept : c.links? with
  | some view => exact ⟨h.links view hkept, rfl, h⟩
  | none =>
    refine ⟨rfl, rfl, ?_, h.tests⟩
    intro view hview
    exact (Option.some.inj hview).symm

theorem Fresh.testView (h : c.Fresh) :
    c.testView.1 = c.registry.testView ∧ c.testView.2.registry = c.registry ∧
      c.testView.2.Fresh := by
  unfold CachedRegistry.testView
  cases hkept : c.tests? with
  | some view => exact ⟨h.tests view hkept, rfl, h⟩
  | none =>
    refine ⟨rfl, rfl, h.links, ?_⟩
    intro view hview
    exact (Option.some.inj hview).symm

/-- What is looked up in a kept view is what the records give. -/
theorem Fresh.contains (h : c.Fresh) (test : Text) :
    (c.contains test).1 = c.registry.contains test := by
  rw [← Registry.any_linkView, ← h.linkView.1]
  rfl

theorem Fresh.linksOf (h : c.Fresh) (test : Text) :
    (c.linksOf test).1 = c.registry.linksOf test := by
  rw [← Registry.lookup_linkView, ← h.linkView.1]
  rfl

theorem Fresh.testsLinking (h : c.Fresh) (target : Target) :
    (c.testsLinking target).1 = c.registry.testsLinking target := by
  rw [← Registry.lookup_testView, ← h.testView.1]
  rfl

/-- One request is answered from the records, changes them as it says, and leaves the kept views
those of the records. -/
theorem Fresh.answer (h : c.Fresh) (q : Request) :
    (c.answer q).1 = c.registry.answer q ∧
      (c.answer q).2.registry = c.registry.afterRequest q ∧ (c.answer q).2.Fresh := by
  cases q with
  | insert record => exact ⟨rfl, rfl, fresh_bare _⟩
  | linkView =>
    obtain ⟨hview, hrest⟩ := h.linkView
    exact ⟨congrArg Reply.linkView hview, hrest⟩
  | testView =>
    obtain ⟨hview, hrest⟩ := h.testView
    exact ⟨congrArg Reply.testView hview, hrest⟩
  | contains test => exact ⟨congrArg Reply.contains (h.contains test), h.linkView.2⟩
  | linksOf test => exact ⟨congrArg Reply.linksOf (h.linksOf test), h.linkView.2⟩
  | testsLinking target =>
    exact ⟨congrArg Reply.testsLinking (h.testsLinking target), h.testView.2⟩

/-! ## §3 Sequences of requests -/

/-- The registry with kept views after a sequence of requests. -/
def run (c : CachedRegistry) (requests : List Request) : CachedRegistry :=
  requests.foldl (fun c q => (c.answer q).2) c

/-- After a sequence of requests the records are those that were there and those taken in, and the
kept views are theirs. -/
theorem Fresh.run (h : c.Fresh) (requests : List Request) :
    (c.run requests).registry = requests.foldl Registry.afterRequest c.registry ∧
      (c.run requests).Fresh := by
  induction requests generalizing c with
  | nil => exact ⟨rfl, h⟩
  | cons q rest ih =>
    obtain ⟨-, hregistry, hfresh⟩ := h.answer q
    have hrest := ih hfresh
    rw [hregistry] at hrest
    exact hrest

end CachedRegistry

/-- The test that a request takes in. -/
def Request.inserted? : Request → Option RegisteredTest
  | .insert record => some record
  | _ => none

/-- The tests that a sequence of requests takes in, in their order. -/
def inserted (requests : List Request) : Registry := ⟨requests.filterMap Request.inserted?⟩

theorem foldl_afterRequest (r : Registry) (requests : List Request) :
    requests.foldl Registry.afterRequest r = ⟨r.records ++ (inserted requests).records⟩ := by
  induction requests generalizing r with
  | nil => simp [inserted]
  | cons q rest ih =>
    rw [List.foldl_cons, ih]
    cases q <;>
      simp [inserted, Request.inserted?, Registry.afterRequest, Registry.insert, List.filterMap_cons]

namespace CachedRegistry

/-- **Kept views never go stale and mirror each other.** After any sequence of requests to an empty
registry, every request is answered as from the tests taken in so far, with nothing kept; and a test
is among those of a target exactly when one of its links has that target, and is said to be there
exactly when a record of it is found. -/
theorem answer_run (requests : List Request) :
    (∀ q, ((run {} requests).answer q).1 = (inserted requests).answer q) ∧
    (run {} requests).registry = inserted requests ∧
    ∀ test target,
      (test ∈ ((run {} requests).testsLinking target).1 ↔
        ∃ link ∈ ((run {} requests).linksOf test).1, link.target = target) ∧
      (((run {} requests).contains test).1 = true ↔
        ∃ record, (run {} requests).registry.get? test = some record) := by
  obtain ⟨hregistry, hfresh⟩ := (fresh_bare {}).run requests
  have hinserted : (run {} requests).registry = inserted requests := by
    rw [hregistry, foldl_afterRequest]
    rfl
  refine ⟨fun q => ?_, hinserted, fun test target => ⟨?_, ?_⟩⟩
  · rw [(hfresh.answer q).1, hinserted]
  · rw [hfresh.testsLinking, hfresh.linksOf]
    exact Registry.mem_testsLinking_iff_linksOf
  · rw [hfresh.contains]
    exact Registry.contains_iff_get?

end CachedRegistry

end Crosslink
