import Crosslink.Proofs.Inscribing

/-!
# What is told of classes

Of the classes of a source their names are told, and of each method its name and the tests that its
attributes name. When groups that name tests are written to a method, their tests are told of that
method, and all else that is told stays as it was.

* §1 `testsNamed`, the tests that groups name, and `anchors`.
* §2 `outline`, what is told of classes, and `outline_written`.
-/

namespace Crosslink.Production

open Source Source.TokenSequence

variable {imports : Imports} {source out : Text} {d w : Nat} {m m' : Source.Method}

/-! ## §1 The tests that groups name -/

theorem testsNamed_append (gs gs' : List AttributeGroup) :
    testsNamed imports (gs ++ gs') = testsNamed imports gs ++ testsNamed imports gs' :=
  List.flatMap_append

theorem testsNamed_cons (g : AttributeGroup) (gs : List AttributeGroup) :
    testsNamed imports (g :: gs) = testsNamed imports [g] ++ testsNamed imports gs :=
  testsNamed_append [g] gs

/-- Groups that stand elsewhere name the same tests. -/
theorem testsNamed_shift (gs : List AttributeGroup) :
    testsNamed imports (gs.map (AttributeGroup.shift d w)) = testsNamed imports gs := by
  have hattributes : ∀ as : List Attribute,
      ((as.map (Attribute.shift w)).filter (·.isNamed testedByName)).filterMap (·.testedBy imports) =
        (as.filter (·.isNamed testedByName)).filterMap (·.testedBy imports) := by
    intro as
    rw [List.filter_map, List.filterMap_map]
    refine List.filterMap_congr fun a _ => testedBy_congr ?_
    simp [Attribute.shift, Argument.shift]
  rw [testsNamed, testsNamed, List.flatMap_map]
  exact congrArg (List.flatMap · gs) (funext fun g => hattributes g.attributes)

/-- The groups of a method below the last of which new ones go: those that name tests, or all when
none does. -/
def anchors (m : Source.Method) : List AttributeGroup :=
  if (m.attributes.filter (·.has testedByName)).isEmpty then m.attributes
  else m.attributes.filter (·.has testedByName)

theorem testsNamed_of_has {gs : List AttributeGroup} (h : ∀ g ∈ gs, g.has testedByName = false) :
    testsNamed imports gs = [] := by
  refine List.flatMap_eq_nil_iff.mpr fun g hg => ?_
  have hnone : g.attributes.filter (·.isNamed testedByName) = [] := by
    refine List.filter_eq_nil_iff.mpr fun a ha => ?_
    exact (List.any_eq_false.mp (h g hg) a ha)
  rw [hnone, List.filterMap_nil]

/-- Only the groups that name tests tell of any. -/
theorem testsNamed_filter (gs : List AttributeGroup) :
    testsNamed imports (gs.filter (·.has testedByName)) = testsNamed imports gs := by
  induction gs with
  | nil => rfl
  | cons g gs ih =>
    rw [List.filter_cons, testsNamed_cons g gs]
    split
    · rw [testsNamed_cons, ih]
    · rename_i hg
      rw [ih, @testsNamed_of_has _ [g] (by simpa using hg), List.nil_append]

/-- Groups that name one test each name these tests. -/
theorem testsNamed_of_forall₂ {rs : List BackReference} {gs : List AttributeGroup}
    (h : List.Forall₂ (fun r g => testsNamed imports [g] = [r]) rs gs) : testsNamed imports gs = rs := by
  induction h with
  | nil => rfl
  | cons hg _ ih =>
    rw [testsNamed_cons, hg, ih]
    rfl

/-! ## §2 Outlines -/

/-- What is told of a method: its name, and the tests it names. -/
def tell (imports : Imports) (m : Source.Method) : Text × List BackReference :=
  (m.name, testsNamed imports m.attributes)

/-- Classes by name, each with its methods by name and the tests they name. -/
abbrev Outline := List (Text × List (Text × List BackReference))

/-- What is told of some classes. -/
def outline (imports : Imports) (classes : List DeclaredClass) : Outline :=
  classes.map fun c => (fullName imports c, c.methods.map (tell imports))

theorem outline_append (imports : Imports) (C₁ C₂ : List DeclaredClass) :
    outline imports (C₁ ++ C₂) = outline imports C₁ ++ outline imports C₂ := List.map_append

theorem outline_cons (imports : Imports) {c : DeclaredClass} (C : List DeclaredClass)
    {ms ms' : List Source.Method} (h : c.methods = ms ++ m :: ms') :
    outline imports (c :: C) = (fullName imports c, ms.map (tell imports) ++
      (m.name, testsNamed imports m.attributes) :: ms'.map (tell imports)) :: outline imports C := by
  rw [outline, List.map_cons, h, List.map_append, List.map_cons]
  rfl

theorem fullName_congr {c c' : DeclaredClass} (h : c'.name = c.name) :
    fullName imports c' = fullName imports c := by
  rw [fullName, fullName, h]

theorem tell_again (h : Method.Again source out m m') : tell imports m' = tell imports m := by
  obtain ⟨d, w, hattributes⟩ := h.attributes
  rw [tell, tell, h.name, hattributes, testsNamed_shift]

/-- The same is told of classes that are found again. -/
theorem outline_again {C C' : List DeclaredClass}
    (h : List.Forall₂ (DeclaredClass.Again source out) C C') : outline imports C' = outline imports C :=
  map_of_forall₂ (fun _ _ hc => by
    rw [fullName_congr hc.name, map_of_forall₂ (fun _ _ hm => tell_again hm) hc.methods]) h

/-- Groups that are written to a method tell of that method. -/
theorem outline_written {C₁ C₂ classes : List DeclaredClass} {c : DeclaredClass}
    {ms ms' : List Source.Method} {A gs B : List AttributeGroup}
    (h : Written source out C₁ C₂ c ms ms' m A gs B classes) (hB : testsNamed imports B = []) :
    outline imports classes = outline imports C₁ ++ (fullName imports c, ms.map (tell imports) ++
      (m.name, testsNamed imports m.attributes ++ testsNamed imports gs) :: ms'.map (tell imports)) ::
        outline imports C₂ := by
  obtain ⟨C₁', c', C₂', ms₁, m₁, ms₂, rfl, hmethods, hname, hC₁, hC₂, hms, hms', hm⟩ := h.parts
  obtain ⟨d, w, hattributes⟩ := hm.attributes
  rw [outline_append, outline_cons imports C₂' hmethods, outline_again hC₁, outline_again hC₂,
    map_of_forall₂ (fun _ _ h => tell_again h) hms, map_of_forall₂ (fun _ _ h => tell_again h) hms',
    fullName_congr hname, hm.name, hattributes, hm.old]
  simp only [testsNamed_append, testsNamed_shift, hB, List.append_nil]

end Crosslink.Production
