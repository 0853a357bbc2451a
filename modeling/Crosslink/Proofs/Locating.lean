import Crosslink.Proofs.Inscribing
import Crosslink.Proofs.Relocating
import Crosslink.AttributeList.Editor

/-!
# Test methods found again

The tests of a file stand in the order of their methods, so that a recorded test is found where it was
recorded. When groups that mark no test are written to the method of a test it is a test as before, and
with all other methods found again the file has as many tests as it had.

* §1 `exists_method`, the method of a test.
* §2 `tests_sorted` and `locate_eq`.
* §3 `tests_around`, the tests of a source in which the method of one of them is another.
-/

namespace Crosslink.AttributeList

open Source Source.TokenSequence

variable {source out : Text} {l l' : TokenSequence} {imports imports' : Imports} {file : File} {i : Nat}
  {t : Test} {m m' : Method} {c c' : DeclaredClass}

/-! ## §1 The tests of a file -/

theorem read_eq (hl : tokenize source = .ok l) : File.read source =
    .ok ⟨Imports.ofTokens l, (l.classes source).flatMap (testsIn source (Imports.ofTokens l))⟩ := by
  rw [File.read, hl]
  rfl

theorem exists_read (h : File.read source = .ok file) : ∃ l, tokenize source = .ok l ∧
    file = ⟨Imports.ofTokens l, (l.classes source).flatMap (testsIn source (Imports.ofTokens l))⟩ := by
  cases hl : tokenize source with
  | error e =>
    rw [File.read, hl] at h
    cases h
  | ok l =>
    rw [read_eq hl] at h
    exact ⟨l, rfl, (Except.ok.inj h).symm⟩

theorem testsIn_split {ms ms' : List Method} (hmethods : c.methods = ms ++ m :: ms')
    (htest : isTest source m = true) : testsIn source imports c =
      (ms.filter (isTest source)).map (testOf source imports c.name) ++
        testOf source imports c.name m :: (ms'.filter (isTest source)).map (testOf source imports c.name) := by
  rw [testsIn, hmethods, List.filter_append, List.filter_cons, if_pos htest, List.map_append, List.map_cons]

/-- An element of a list of lists in a row stands in one of them. -/
theorem exists_of_flatMap {α β : Type} {f : α → List β} {xs : List α} {y : β} {i : Nat}
    (h : (xs.flatMap f)[i]? = some y) : ∃ xs₁ x xs₂ j, xs = xs₁ ++ x :: xs₂ ∧ (f x)[j]? = some y ∧
      i = (xs₁.flatMap f).length + j := by
  induction xs generalizing i with
  | nil => cases h
  | cons x xs ih =>
    rw [List.flatMap_cons] at h
    by_cases hi : i < (f x).length
    · rw [List.getElem?_append_left hi] at h
      exact ⟨[], x, xs, i, rfl, h, (Nat.zero_add i).symm⟩
    · rw [List.getElem?_append_right (Nat.le_of_not_lt hi)] at h
      obtain ⟨xs₁, x', xs₂, j, rfl, hj, he⟩ := ih h
      refine ⟨x :: xs₁, x', xs₂, j, rfl, hj, ?_⟩
      rw [List.flatMap_cons, List.length_append]
      omega

/-- So does one of a list that is filtered. -/
theorem exists_of_filter {α β : Type} {p : α → Bool} {f : α → β} {xs : List α} {y : β} {j : Nat}
    (h : ((xs.filter p).map f)[j]? = some y) : ∃ xs₁ x xs₂, xs = xs₁ ++ x :: xs₂ ∧ p x = true ∧
      y = f x ∧ j = (xs₁.filter p).length := by
  induction xs generalizing j with
  | nil => cases h
  | cons x xs ih =>
    rw [List.filter_cons] at h
    split at h
    · rename_i hx
      cases j with
      | zero => exact ⟨[], x, xs, rfl, hx, (Option.some.inj h).symm, rfl⟩
      | succ j =>
        obtain ⟨xs₁, x', xs₂, rfl, hp, hy, hj⟩ := ih h
        exact ⟨x :: xs₁, x', xs₂, rfl, hp, hy, by rw [List.filter_cons, if_pos hx, hj]; rfl⟩
    · rename_i hx
      obtain ⟨xs₁, x', xs₂, rfl, hp, hy, hj⟩ := ih h
      exact ⟨x :: xs₁, x', xs₂, rfl, hp, hy, by rw [List.filter_cons, if_neg hx, hj]⟩

/-- A test is a method of a class, at a position that the classes and methods before it give. -/
theorem exists_method {classes : List DeclaredClass}
    (h : (classes.flatMap (testsIn source imports))[i]? = some t) :
    ∃ C₁ c C₂ ms m ms', classes = C₁ ++ c :: C₂ ∧ c.methods = ms ++ m :: ms' ∧ isTest source m = true ∧
      t = testOf source imports c.name m ∧
      i = (C₁.flatMap (testsIn source imports)).length + (ms.filter (isTest source)).length := by
  obtain ⟨C₁, c, C₂, j, hclasses, hj, hi⟩ := exists_of_flatMap h
  obtain ⟨ms, m, ms', hmethods, htest, ht, hms⟩ := exists_of_filter hj
  exact ⟨C₁, c, C₂, ms, m, ms', hclasses, hmethods, htest, ht, by rw [hi, hms]⟩

/-- The test at that position. -/
theorem getElem?_tests {C₁ C₂ : List DeclaredClass} {ms ms' : List Method}
    (hmethods : c.methods = ms ++ m :: ms') (htest : isTest source m = true) :
    ((C₁ ++ c :: C₂).flatMap (testsIn source imports))[
        (C₁.flatMap (testsIn source imports)).length + (ms.filter (isTest source)).length]? =
      some (testOf source imports c.name m) := by
  rw [List.flatMap_append, List.flatMap_cons, List.getElem?_append_right (Nat.le_add_right _ _),
    Nat.add_sub_cancel_left, testsIn_split hmethods htest, List.append_assoc,
    List.getElem?_append_right (by rw [List.length_map]), List.length_map, Nat.sub_self]
  rfl

/-! ## §2 Where tests are found -/

/-- A method of a class starts at a token of its body. -/
theorem exists_start {H : ClassHeader} (hl : tokenize source = .ok l) (hm : m ∈ (H.read l source).methods) :
    ∃ j u, H.body < j ∧ j < H.close ∧ l.tokens[j]? = some u ∧ m.start = u.span.start := by
  rw [ClassHeader.read, methodsFrom_eq] at hm
  obtain hstart | ⟨u, hu, hplace⟩ := start_of_mem_playback (.fresh _) hm
  · simp [Pending.fresh] at hstart
  · obtain ⟨j, v, hj, hlt, hv, hturn⟩ := exists_token_of_mem_turnsFrom hu
    exact ⟨j, v, hj, hlt, hv, place_of_turn (nested_of_tokenize hl) hv hturn _ hplace⟩

/-- Tests start one after the other. -/
theorem tests_sorted (hl : tokenize source = .ok l) (imports : Imports) :
    ((l.classes source).flatMap (testsIn source imports)).Pairwise fun a b =>
      a.case.span.start < b.case.span.start := by
  have hn := nested_of_tokenize hl
  rw [classes_eq, List.flatMap_map]
  refine List.pairwise_flatMap.mpr ⟨fun H _ => ?_, (headersFrom_order hn 0).imp_of_mem ?_⟩
  · refine List.pairwise_map.mpr (List.Pairwise.filter _ ?_)
    show (l.methodsFrom source H.close (.fresh _) (H.body + 1)).Pairwise fun a b => a.start < b.start
    rw [methodsFrom_eq]
    exact starts_sorted hl _ (by simp [Pending.fresh])
  · intro H H' hH hH' horder a ha b hb
    obtain ⟨m, hm, rfl⟩ := List.mem_map.mp ha
    obtain ⟨m', hm', rfl⟩ := List.mem_map.mp hb
    obtain ⟨j, u, -, hj, hu, hstart⟩ := exists_start hl (List.mem_filter.mp hm).1
    obtain ⟨j', u', hj', -, hu', hstart'⟩ := exists_start hl (List.mem_filter.mp hm').1
    have := (stands_of_mem hn hH').2.first
    show m.start < m'.start
    rw [hstart, hstart']
    exact start_lt hl hu hu' (by omega)

/-- A recorded test is found in the source it was recorded from. -/
theorem locate_eq {r : TestCase} (h : File.read source = .ok file) (ht : file.tests[i]? = some t)
    (hr : FluentChain.Recorded t.case r) : locate source r = .ok (file, t) := by
  obtain ⟨l, hl, rfl⟩ := exists_read h
  have hsorted := tests_sorted hl (Imports.ofTokens l)
  obtain ⟨hi, hget⟩ := List.getElem?_eq_some_iff.mp ht
  have hfind : TestCase.findAgain? (((l.classes source).flatMap
      (testsIn source (Imports.ofTokens l))).map Test.case) r = some i := by
    refine FluentChain.findAgain_eq (c := t.case) (by rw [List.getElem?_map, ht]; rfl) hr
      fun j d hj hd he => ?_
    rw [List.getElem?_map] at hd
    obtain ⟨u, hu, rfl⟩ := Option.map_eq_some_iff.mp hd
    obtain ⟨hj', hget'⟩ := List.getElem?_eq_some_iff.mp hu
    have := List.pairwise_iff_getElem.mp hsorted j i hj' hi hj
    rw [hget, hget'] at this
    omega
  have hbind : (TestCase.findAgain? (((l.classes source).flatMap
      (testsIn source (Imports.ofTokens l))).map Test.case) r).bind
      (((l.classes source).flatMap (testsIn source (Imports.ofTokens l)))[·]?) = some t := by
    rw [hfind]
    exact ht
  simp only [locate, h, Except.mapError, bind, Except.bind, hbind]
  rfl

/-! ## §3 The tests around a test -/

theorem has_shift (d w : Nat) (g : AttributeGroup) (name : Text) : (g.shift d w).has name = g.has name := by
  rw [AttributeGroup.has, AttributeGroup.has, AttributeGroup.shift, List.any_map]
  rfl

/-- What makes a method a test is the same in another source. -/
theorem isTest_of_alike (h : Method.Alike source out m m')
    (hhas : m'.attributes.any (·.has testName) = m.attributes.any (·.has testName)) :
    isTest out m' = isTest source m := by
  have hdoc : (m'.doc.any fun d => Text.contains "@test" (d.slice out)) =
      m.doc.any fun d => Text.contains "@test" (d.slice source) := by
    have := congrArg (Option.any (Text.contains "@test")) h.doc
    rwa [Option.any_map, Option.any_map] at this
  rw [isTest, isTest, hhas, hdoc, h.name, Method.isPublic, Method.isPublic, Method.isAbstract,
    Method.isAbstract, h.modifiers]

theorem isTest_again (h : Method.Again source out m m') : isTest out m' = isTest source m := by
  obtain ⟨d, w, hattributes⟩ := h.attributes
  refine isTest_of_alike h.toAlike ?_
  rw [hattributes, List.any_map]
  exact congrArg (List.any m.attributes) (funext fun g => has_shift d w g testName)

theorem isTest_extended {A gs B : List AttributeGroup} (h : Method.Extended source out m A gs B m')
    (hgs : ∀ g ∈ gs, g.has testName = false) : isTest out m' = isTest source m := by
  obtain ⟨d, w, hattributes⟩ := h.attributes
  have hnone : gs.any (·.has testName) = false := List.any_eq_false.mpr fun g hg => by simp [hgs g hg]
  have hshift : (B.map (AttributeGroup.shift d w)).any (·.has testName) = B.any (·.has testName) := by
    rw [List.any_map]
    exact congrArg (List.any B) (funext fun g => has_shift d w g testName)
  refine isTest_of_alike h.toAlike ?_
  rw [hattributes, h.old, List.any_append, List.any_append, List.any_append, hnone, hshift, Bool.false_or]

theorem length_filter_again {ms ms' : List Method} (h : List.Forall₂ (Method.Again source out) ms ms') :
    (ms'.filter (isTest out)).length = (ms.filter (isTest source)).length := by
  rw [← List.countP_eq_length_filter, ← List.countP_eq_length_filter]
  induction h with
  | nil => rfl
  | cons hm _ ih => rw [List.countP_cons, List.countP_cons, ih, isTest_again hm]

theorem length_tests_again {C C' : List DeclaredClass}
    (h : List.Forall₂ (DeclaredClass.Again source out) C C') (imports imports' : Imports) :
    (C'.flatMap (testsIn out imports')).length = (C.flatMap (testsIn source imports)).length := by
  induction h with
  | nil => rfl
  | cons hc _ ih =>
    rw [List.flatMap_cons, List.flatMap_cons, List.length_append, List.length_append, ih, testsIn, testsIn,
      List.length_map, List.length_map, length_filter_again hc.methods]

/-- With the classes and the methods around the method of a test the tests around it are found again. -/
theorem tests_around {C₁ C₂ C₁' C₂' : List DeclaredClass} {ms ms' ms₁ ms₂ : List Method}
    (hmethods : c.methods = ms ++ m :: ms') (htest : isTest source m = true)
    (hmethods' : c'.methods = ms₁ ++ m' :: ms₂) (htest' : isTest out m' = true) (hname : c'.name = c.name)
    (hC₁ : List.Forall₂ (DeclaredClass.Again source out) C₁ C₁')
    (hC₂ : List.Forall₂ (DeclaredClass.Again source out) C₂ C₂')
    (hms : List.Forall₂ (Method.Again source out) ms ms₁)
    (hms' : List.Forall₂ (Method.Again source out) ms' ms₂) (imports imports' : Imports) :
    ((C₁' ++ c' :: C₂').flatMap (testsIn out imports')).length =
        ((C₁ ++ c :: C₂).flatMap (testsIn source imports)).length ∧
      ((C₁' ++ c' :: C₂').flatMap (testsIn out imports'))[(C₁.flatMap (testsIn source imports)).length +
        (ms.filter (isTest source)).length]? = some (testOf out imports' c.name m') := by
  constructor
  · simp only [List.flatMap_append, List.flatMap_cons, List.length_append, testsIn_split hmethods htest,
      testsIn_split hmethods' htest', List.length_cons, List.length_map, length_filter_again hms,
      length_filter_again hms', length_tests_again hC₁ imports,
      length_tests_again hC₂ imports]
  · rw [← length_tests_again hC₁ imports imports', ← length_filter_again hms, ← hname]
    exact getElem?_tests hmethods' htest'

end Crosslink.AttributeList
