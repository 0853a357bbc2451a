import Crosslink.Proofs.Carving
import Crosslink.Proofs.Locating

/-!
# Edits of one test

An edit of one test leaves the tests of a file as many and in their order, with their names and their
identifiers, and no test but that one declares other links.

* §1 `Confined`, this relation of the tests before and after.
* §2 `Sited.confined`, tests with chains.
* §3 `confined_around`, tests that are methods of classes.
-/

namespace Crosslink

/-! ## §1 What an edit leaves alone -/

/-- What a test goes by. -/
def TestCase.label (c : TestCase) : Text × Text := (c.name, c.identifier)

/-- The tests of a file when the one at the index `i` has been edited: they go by what they went by, in the
same order, and all others declare what they declared. -/
structure Confined (i : Nat) (old new : List TestCase) : Prop where
  labels : new.map TestCase.label = old.map TestCase.label
  others : ∀ j, j ≠ i → (new[j]?).map TestCase.links = (old[j]?).map TestCase.links

namespace Confined

variable {i j : Nat} {old new newer xs ys xs' ys' : List TestCase} {c d : TestCase}

theorem refl (i : Nat) (old : List TestCase) : Confined i old old := ⟨rfl, fun _ _ => rfl⟩

theorem trans (h : Confined i old new) (h' : Confined i new newer) : Confined i old newer :=
  ⟨h'.labels.trans h.labels, fun j hj => (h'.others j hj).trans (h.others j hj)⟩

theorem symm (h : Confined i old new) : Confined i new old :=
  ⟨h.labels.symm, fun j hj => (h.others j hj).symm⟩

theorem length (h : Confined i old new) : new.length = old.length := by
  simpa using congrArg List.length h.labels

/-- What is known of all others when something is put in the place of one. -/
theorem getElem?_map_of_ne {α β : Type} {f : α → β} {xs ys xs' ys' : List α} {x x' : α} {j : Nat}
    (hxs : xs'.map f = xs.map f) (hys : ys'.map f = ys.map f) (hj : j ≠ xs.length) :
    ((xs' ++ x' :: ys')[j]?).map f = ((xs ++ x :: ys)[j]?).map f := by
  have hlength : xs'.length = xs.length := by simpa using congrArg List.length hxs
  rw [← List.getElem?_map, ← List.getElem?_map, List.map_append, List.map_append, hxs, List.map_cons,
    List.map_cons, hys]
  obtain hlt | hlt := Nat.lt_or_gt_of_ne hj
  · rw [List.getElem?_append_left (by simpa using hlt), List.getElem?_append_left (by simpa using hlt)]
  · rw [List.getElem?_append_right (by simpa using hlt.le), List.getElem?_append_right (by simpa using hlt.le)]
    obtain ⟨k, hk⟩ := Nat.exists_eq_add_of_lt
      (show 0 < j - (xs.map f).length by simpa using Nat.sub_pos_of_lt hlt)
    rw [hk, Nat.zero_add, List.getElem?_cons_succ, List.getElem?_cons_succ]

/-- What a test goes by and the links it declares. -/
def sketch (c : TestCase) : (Text × Text) × List Link := (c.label, c.links)

theorem map_of_sketch {β : Type} {f : (Text × Text) × List Link → β} (h : xs'.map sketch = xs.map sketch) :
    xs'.map (f ∘ sketch) = xs.map (f ∘ sketch) := by
  rw [← List.map_map, h, List.map_map]

/-- One test is edited among others that stay. -/
theorem of_parts (hxs : xs'.map sketch = xs.map sketch) (hys : ys'.map sketch = ys.map sketch)
    (hlabel : d.label = c.label) : Confined xs.length (xs ++ c :: ys) (xs' ++ d :: ys') := by
  have hlabels : ∀ {us vs : List TestCase}, us.map sketch = vs.map sketch →
      us.map TestCase.label = vs.map TestCase.label := fun h => map_of_sketch (f := Prod.fst) h
  refine ⟨?_, fun j hj => getElem?_map_of_ne (map_of_sketch (f := Prod.snd) hxs)
    (map_of_sketch (f := Prod.snd) hys) hj⟩
  rw [List.map_append, List.map_append, List.map_cons, List.map_cons, hlabels hxs, hlabels hys, hlabel]

end Confined

/-! ## §2 Chains -/

namespace FluentChain

open Source

variable {source : Text} {l l' : TokenSequence} {file : File} {i o c : Nat} {keyword : Keyword} {t : Test}
  {R : List Piece}

/-- When the chain of a test is changed, only that test may declare other links, and where all titles are
quoted texts all tests keep their names. -/
theorem Sited.confined (h : Sited source l file i o c keyword t) (hchanged : Changed o source l R l')
    (htitled : Titled l source) : ∃ file', File.read (R.flatMap Piece.text) = .ok file' ∧
      file'.imports = file.imports ∧
      Confined i (file.tests.map Test.case) (file'.tests.map Test.case) := by
  have himports := hchanged.imports.trans h.imports.symm
  refine ⟨⟨file.imports, (located l' (R.flatMap Piece.text) file.imports).map Prod.snd⟩, ?_, rfl, ?_, ?_⟩
  · rw [File.read, hchanged.read, ← himports, ← tests_eq_located]
    rfl
  · rw [h.tests, List.map_map, List.map_map, List.map_map, List.map_map]
    refine (map_of_forall₂ (fun p q hpq => ?_) (hchanged.frame.tests file.imports))
    exact Prod.ext (hpq.name htitled) (hpq.identifier htitled)
  · intro j hj
    have hothers := hchanged.frame.others h.at_site hj
    rw [h.tests]
    simpa [Function.comp_def] using hothers

end FluentChain

/-! ## §3 Attribute lists -/

namespace AttributeList

open Source

variable {source out : Text} {imports : Imports} {m m' : Method} {c c' : DeclaredClass} {n : Text}
  {a : Attribute}

theorem linkOf_shift (w : Nat) (a : Attribute) : linkOf imports (a.shift w) = linkOf imports a := by
  have htarget : (a.shift w).target imports = a.target imports :=
    target_congr (by simp [Attribute.shift, Argument.shift])
  rw [linkOf, htarget]
  rfl

/-- A method that is found again goes by what it went by, and declares the links it declared. -/
theorem sketch_again (h : Method.Again source out m m') (imports : Imports) (n : Text) :
    Confined.sketch (testOf out imports n m').case = Confined.sketch (testOf source imports n m).case := by
  obtain ⟨d, w, hattributes⟩ := h.attributes
  have hholds : AttributeGroup.holdsLink ∘ AttributeGroup.shift d w = AttributeGroup.holdsLink :=
    funext fun g => List.any_map
  have hlinks : linkAttributes m' = (linkAttributes m).map (Attribute.shift w) := by
    rw [linkAttributes, linkAttributes, groupsWithLinks, groupsWithLinks, hattributes, List.filter_map, hholds,
      List.flatMap_map, List.map_flatMap]
    exact List.flatMap_congr fun g _ => List.filter_map
  refine Prod.ext (Prod.ext h.name ?_) ?_
  · exact congrArg (fun name => n ++ memberSeparator ++ name) h.name
  · show (linkAttributes m').filterMap (linkOf imports) = (linkAttributes m).filterMap (linkOf imports)
    rw [hlinks, List.filterMap_map]
    exact List.filterMap_congr fun a _ => linkOf_shift w a

theorem sketches_tests_again {ms ms' : List Method} (h : List.Forall₂ (Method.Again source out) ms ms')
    (imports : Imports) (n : Text) :
    (((ms'.filter (isTest out)).map (testOf out imports n)).map Test.case).map Confined.sketch =
      (((ms.filter (isTest source)).map (testOf source imports n)).map Test.case).map Confined.sketch := by
  induction h with
  | nil => rfl
  | @cons m m' ms ms' hm _ ih =>
    rw [List.filter_cons, List.filter_cons, isTest_again hm]
    split
    · exact congrArg₂ List.cons (sketch_again hm imports n) ih
    · exact ih

theorem sketches_again {C C' : List DeclaredClass} (h : List.Forall₂ (DeclaredClass.Again source out) C C')
    (imports : Imports) :
    ((C'.flatMap (testsIn out imports)).map Test.case).map Confined.sketch =
      ((C.flatMap (testsIn source imports)).map Test.case).map Confined.sketch := by
  induction h with
  | nil => rfl
  | @cons c c' C C' hc _ ih =>
    rw [List.flatMap_cons, List.flatMap_cons, List.map_append, List.map_append, List.map_append,
      List.map_append, ih]
    refine congrArg (· ++ _) ?_
    rw [testsIn, testsIn, hc.name]
    exact sketches_tests_again hc.methods imports c.name

/-- The tests of a file, parted at one of them. -/
theorem tests_split {C₁ C₂ : List DeclaredClass} {ms ms' : List Method}
    (hmethods : c.methods = ms ++ m :: ms') (htest : isTest source m = true) (imports : Imports) :
    (C₁ ++ c :: C₂).flatMap (testsIn source imports) =
      (C₁.flatMap (testsIn source imports) ++ (ms.filter (isTest source)).map (testOf source imports c.name)) ++
        testOf source imports c.name m :: ((ms'.filter (isTest source)).map (testOf source imports c.name) ++
          C₂.flatMap (testsIn source imports)) := by
  rw [List.flatMap_append, List.flatMap_cons, testsIn_split hmethods htest]
  simp

/-- The classes and the methods around the method of a test that are found again hold the tests that they
held. -/
theorem confined_around {C₁ C₂ C₁' C₂' : List DeclaredClass} {ms ms' ms₁ ms₂ : List Method}
    (hmethods : c.methods = ms ++ m :: ms') (htest : isTest source m = true)
    (hmethods' : c'.methods = ms₁ ++ m' :: ms₂) (htest' : isTest out m' = true) (hname : c'.name = c.name)
    (hC₁ : List.Forall₂ (DeclaredClass.Again source out) C₁ C₁')
    (hC₂ : List.Forall₂ (DeclaredClass.Again source out) C₂ C₂')
    (hms : List.Forall₂ (Method.Again source out) ms ms₁)
    (hms' : List.Forall₂ (Method.Again source out) ms' ms₂) (hm : m'.name = m.name) (imports : Imports) :
    Confined ((C₁.flatMap (testsIn source imports)).length + (ms.filter (isTest source)).length)
      (((C₁ ++ c :: C₂).flatMap (testsIn source imports)).map Test.case)
      (((C₁' ++ c' :: C₂').flatMap (testsIn out imports)).map Test.case) := by
  have hparts := @Confined.of_parts
    ((C₁.flatMap (testsIn source imports) ++
      (ms.filter (isTest source)).map (testOf source imports c.name)).map Test.case)
    (((ms'.filter (isTest source)).map (testOf source imports c.name) ++
      C₂.flatMap (testsIn source imports)).map Test.case)
    ((C₁'.flatMap (testsIn out imports) ++
      (ms₁.filter (isTest out)).map (testOf out imports c'.name)).map Test.case)
    (((ms₂.filter (isTest out)).map (testOf out imports c'.name) ++
      C₂'.flatMap (testsIn out imports)).map Test.case)
    (testOf source imports c.name m).case (testOf out imports c'.name m').case
    (by simp only [List.map_append, sketches_again hC₁, hname, sketches_tests_again hms])
    (by simp only [List.map_append, sketches_again hC₂, hname, sketches_tests_again hms'])
    (Prod.ext hm (by rw [hname]; exact congrArg (fun name => c.name ++ memberSeparator ++ name) hm))
  rw [tests_split hmethods htest, tests_split hmethods' htest']
  simpa using hparts

/-- When groups are written to the method of a test, the test stands at the position where it stood, and all
others are left alone. -/
theorem exists_test_written {C₁ C₂ classes : List DeclaredClass} {ms ms' : List Method}
    {A gs B : List AttributeGroup} (hmethods : c.methods = ms ++ m :: ms')
    (htest : isTest source m = true) (h : Written source out C₁ C₂ c ms ms' m A gs B classes)
    (hgs : ∀ g ∈ gs, g.has testName = false) :
    ∃ m', Method.Extended source out m A gs B m' ∧
      (∀ imports imports', (classes.flatMap (testsIn out imports')).length =
          ((C₁ ++ c :: C₂).flatMap (testsIn source imports)).length ∧
        (classes.flatMap (testsIn out imports'))[(C₁.flatMap (testsIn source imports)).length +
          (ms.filter (isTest source)).length]? = some (testOf out imports' c.name m')) ∧
      ∀ imports, Confined ((C₁.flatMap (testsIn source imports)).length + (ms.filter (isTest source)).length)
        (((C₁ ++ c :: C₂).flatMap (testsIn source imports)).map Test.case)
        ((classes.flatMap (testsIn out imports)).map Test.case) := by
  obtain ⟨C₁', c', C₂', ms₁, m', ms₂, rfl, hmethods', hname, hC₁, hC₂, hms, hms', hm⟩ := h.parts
  have htest' : isTest out m' = true := (isTest_extended hm hgs).trans htest
  exact ⟨m', hm,
    tests_around hmethods htest hmethods' htest' hname hC₁ hC₂ hms hms',
    fun imports => confined_around hmethods htest hmethods' htest' hname hC₁ hC₂ hms hms' hm.name imports⟩

end AttributeList

end Crosslink
