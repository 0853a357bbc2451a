import Crosslink.Proofs.Recovering
import Crosslink.Proofs.Restoring
import Crosslink.Proofs.Unlinking

/-!
# Removal is exact

Where links are removed from a test, that test is left with the links that were not asked for, and no other
test is touched. In a chain this takes nothing but that the items of its calls can be told apart from what is
around them; attribute groups have to stand where members begin, and to hold attributes only.

* `LosesLinks`, what becomes of the tests of a file.
* `FluentChain.Prunable` and `AttributeList.Prunable`, what it takes.
* `remove_exact`, and `remove_inexact`, where a text that is left is not read as it was.
-/

namespace Crosslink

open Source

/-- Of the links of the tests of a file those of the test at an index lose the ones to some targets, and all
others stay. -/
structure LosesLinks (targets : List Target) (i : Nat) (old new : List (List Link)) : Prop where
  length : new.length = old.length
  lost : new[i]? = (old[i]?).map (List.filter fun k => !targets.contains k.target)
  others : ∀ j, j ≠ i → new[j]? = old[j]?

/-- What it takes for links to be taken out of a chain, and nothing else to change. -/
structure FluentChain.Prunable (source : Text) (t : FluentChain.Test) : Prop where
  spaced : Spaced (cut source)
  clear : FluentChain.ClearOfImports source t

/-- What it takes for links to be taken out of attribute groups, and nothing else to change. -/
structure AttributeList.Prunable (source : Text) (imports : Imports) (targets : List Target) (m : Method) :
    Prop extends AttributeList.Editable source m where
  groups : ∀ g ∈ m.attributes, AttributeList.Removable source imports targets g

variable {source out : Text} {targets : List Target} {names : List Text} {i : Nat} {r : TestCase}

/-- The links of tests that lose some, from the test they are taken from and from the others. -/
theorem losesLinks_map {α : Type} {f : α → List Link} {ts us : List α} {t u : α}
    (hlength : us.length = ts.length) (ht : ts[i]? = some t) (hu : us[i]? = some u)
    (hlost : f u = (f t).filter (FluentChain.unwanted targets))
    (hothers : ∀ j, j ≠ i → (us[j]?).map f = (ts[j]?).map f) : LosesLinks targets i (ts.map f) (us.map f) := by
  refine ⟨by simpa using hlength, ?_, fun j hj => by simpa using hothers j hj⟩
  rw [List.getElem?_map, List.getElem?_map, ht, hu, Option.map_some, Option.map_some, Option.map_some, hlost]
  rfl

/-- **Removal is exact.** What is left of a source is that source if the test declares none of the links that
are removed. Else it holds as many tests, the test at the same place declares the links that were not
removed, in their order and with the coverage they had, and every other test declares what it declared. -/
theorem remove_exact (hnames : parseTargets names = .ok targets) :
    (∀ file t, FluentChain.File.read source = .ok file → file.tests[i]? = some t →
      FluentChain.Recorded t.case r → FluentChain.remove source r names = .ok out →
      ((∀ k ∈ t.case.links, k.target ∉ targets) → out = source) ∧
      (FluentChain.Prunable source t → ∃ file', FluentChain.File.read out = .ok file' ∧
        LosesLinks targets i (file.tests.map (·.case.links)) (file'.tests.map (·.case.links)))) ∧
    (∀ file t, AttributeList.File.read source = .ok file → file.tests[i]? = some t →
      FluentChain.Recorded t.case r → AttributeList.remove source r names = .ok out →
      ((∀ k ∈ t.case.links, k.target ∉ targets) → out = source) ∧
      (AttributeList.Prunable source file.imports targets t.method → ∃ file',
        AttributeList.File.read out = .ok file' ∧
        LosesLinks targets i (file.tests.map (·.case.links)) (file'.tests.map (·.case.links)))) := by
  constructor
  · intro file t hread ht hr hremove
    refine ⟨fun h => ?_, fun h => ?_⟩
    · exact Except.ok.inj (hremove.symm.trans (FluentChain.remove_of_undeclared hread ht hr hnames h))
    · obtain ⟨out', file', t', hout, hread', hlength, ht', hlinks, hothers⟩ :=
        FluentChain.links_of_remove hread ht hr hnames h.spaced h.clear
      obtain rfl := Except.ok.inj (hremove.symm.trans hout)
      exact ⟨file', hread', losesLinks_map hlength ht ht' hlinks hothers⟩
  · intro file t hread ht hr hremove
    refine ⟨fun h => ?_, fun h => ?_⟩
    · exact Except.ok.inj (hremove.symm.trans (AttributeList.remove_of_undeclared hread ht hr hnames h))
    · obtain ⟨file', t', hpruned, hlinks⟩ :=
        AttributeList.links_of_remove hread ht (AttributeList.locate_eq hread ht hr) hnames h.toEditable
          h.groups hremove
      exact ⟨file', hpruned.read, losesLinks_map hpruned.length ht hpruned.test hlinks fun _ => hpruned.others⟩

/-- Two tests with a chain each, the first of which names two links. -/
def chainedSource : Text :=
  "use App\\X;\ntest('a')\n  ->links(X::class, 'B');\ntest('b')->links(X::class);\n"

/-- An item of a chain can be taken out. -/
theorem exists_chained : ∃ file t, FluentChain.File.read chainedSource = .ok file ∧ file.tests[0]? = some t ∧
    t.case.links = [⟨⟨"App\\X", none⟩, false⟩, ⟨⟨"B", none⟩, false⟩] ∧ FluentChain.Prunable chainedSource t ∧
    FluentChain.remove chainedSource t.case ["App\\X"] =
      .ok "use App\\X;\ntest('a')\n  ->links('B');\ntest('b')->links(X::class);\n" := by
  have h : ((FluentChain.File.read chainedSource).toOption.any fun file => file.tests[0]?.any fun t =>
      t.case.links = [⟨⟨"App\\X", none⟩, false⟩, ⟨⟨"B", none⟩, false⟩] &&
        FluentChain.usesBefore chainedSource t &&
        FluentChain.removeSplices t [⟨"App\\X", none⟩] = [.delete ⟨31, 41⟩]) = true := by decide +kernel
  obtain ⟨file, hfile, h⟩ := (Option.any_eq_true _ _).mp h
  obtain ⟨t, ht, h⟩ := (Option.any_eq_true _ _).mp h
  simp only [Bool.and_eq_true, decide_eq_true_eq] at h
  obtain ⟨⟨hlinks, huses⟩, hsplices⟩ := h
  have hread := eq_ok_of_toOption hfile
  have hnames : parseTargets ["App\\X"] = .ok [⟨"App\\X", none⟩] := by decide +kernel
  refine ⟨file, t, hread, ht, hlinks, ⟨by decide +kernel, FluentChain.clearOfImports_of_usesBefore huses⟩, ?_⟩
  rw [FluentChain.remove_eq (FluentChain.locate_eq hread ht (.refl _)) hnames, hsplices]
  decide +kernel

/-- A test with a group of two links and a group of one. -/
def groupedSource : Text :=
  "use App\\X;\nclass T \x7b\n    #[Links(X::class), Links(C::class)]\n    #[Links('B')]\n" ++
    "    function test_a() \x7b\x7d\n\x7d\n"

/-- A part of a group can be taken out with all of another. -/
theorem exists_grouped : ∃ file t, AttributeList.File.read groupedSource = .ok file ∧ file.tests[0]? = some t ∧
    t.case.links = [⟨⟨"App\\X", none⟩, false⟩, ⟨⟨"C", none⟩, false⟩, ⟨⟨"B", none⟩, false⟩] ∧
    AttributeList.Prunable groupedSource file.imports [⟨"App\\X", none⟩, ⟨"B", none⟩] t.method ∧
    AttributeList.remove groupedSource t.case ["App\\X", "B"] = .ok ("use App\\X;\nclass T \x7b\n" ++
      "    #[Links(C::class)]\n    function test_a() \x7b\x7d\n\x7d\n") := by
  have h : ((AttributeList.File.read groupedSource).toOption.any fun file => file.tests[0]?.any fun t =>
      t.case.links = [⟨⟨"App\\X", none⟩, false⟩, ⟨⟨"C", none⟩, false⟩, ⟨⟨"B", none⟩, false⟩] &&
        ((tokenize groupedSource).toOption.all fun l => (List.range l.tokens.size).all fun q =>
          (l.tokens[q]?).all fun u => !(t.method.start ≤ u.span.start &&
            u.span.start < t.method.nameSpan.start) || neverCrosses l q 40 {} 0) &&
        ("test" : Text).isPrefixOf t.method.name &&
        (t.method.attributes.all fun g => g.tidyFrom 0 (cut groupedSource) &&
          g.behindFrom false 0 (cut groupedSource)) &&
        (AttributeList.groupsWithLinks t.method).flatMap
          (AttributeList.removeFromGroup groupedSource file.imports
          [⟨"App\\X", none⟩, ⟨"B", none⟩]) = [.delete ⟨27, 44⟩, .delete ⟨61, 79⟩]) = true := by decide +kernel
  obtain ⟨file, hfile, h⟩ := (Option.any_eq_true _ _).mp h
  obtain ⟨t, ht, h⟩ := (Option.any_eq_true _ _).mp h
  simp only [Bool.and_eq_true, decide_eq_true_eq] at h
  obtain ⟨⟨⟨⟨hlinks, hclear⟩, hname⟩, hgroups⟩, hsplices⟩ := h
  have hread := eq_ok_of_toOption hfile
  have hnames : parseTargets ["App\\X", "B"] = .ok [⟨"App\\X", none⟩, ⟨"B", none⟩] := by decide +kernel
  refine ⟨file, t, hread, ht, hlinks, ⟨⟨clearBetween_of_neverCrosses hclear, .inl hname⟩, fun g hg => ?_⟩, ?_⟩
  · obtain ⟨htidy, hbehind⟩ := Bool.and_eq_true_iff.mp (List.all_eq_true.mp hgroups g hg)
    exact ⟨fun _ => AttributeGroup.tidy_of_tidyFrom htidy,
      fun _ => AttributeGroup.behind_of_behindFrom (List.nil_append _).symm (by simp) hbehind⟩
  · rw [AttributeList.remove_eq (AttributeList.locate_eq hread ht (.refl _)) hnames, hsplices,
      applyEdit_of_sorted (by decide)]
    decide +kernel

/-- Links of both sources are removed, and no others change. -/
theorem remove_exact_sample :
    (∃ file t out file', FluentChain.File.read chainedSource = .ok file ∧ file.tests[0]? = some t ∧
      t.case.links = [⟨⟨"App\\X", none⟩, false⟩, ⟨⟨"B", none⟩, false⟩] ∧
      FluentChain.remove chainedSource t.case ["App\\X"] = .ok out ∧ FluentChain.File.read out = .ok file' ∧
      LosesLinks [⟨"App\\X", none⟩] 0 (file.tests.map (·.case.links)) (file'.tests.map (·.case.links))) ∧
    (∃ file t out file', AttributeList.File.read groupedSource = .ok file ∧ file.tests[0]? = some t ∧
      t.case.links = [⟨⟨"App\\X", none⟩, false⟩, ⟨⟨"C", none⟩, false⟩, ⟨⟨"B", none⟩, false⟩] ∧
      AttributeList.remove groupedSource t.case ["App\\X", "B"] = .ok out ∧
      AttributeList.File.read out = .ok file' ∧
      LosesLinks [⟨"App\\X", none⟩, ⟨"B", none⟩] 0 (file.tests.map (·.case.links))
        (file'.tests.map (·.case.links))) := by
  constructor
  · obtain ⟨file, t, hread, ht, hlinks, hprunable, hremove⟩ := exists_chained
    have hnames : parseTargets ["App\\X"] = .ok [⟨"App\\X", none⟩] := by decide +kernel
    obtain ⟨file', hread', hloses⟩ := ((remove_exact hnames).1 file t hread ht (.refl _) hremove).2 hprunable
    exact ⟨file, t, _, file', hread, ht, hlinks, hremove, hread', hloses⟩
  · obtain ⟨file, t, hread, ht, hlinks, hprunable, hremove⟩ := exists_grouped
    have hnames : parseTargets ["App\\X", "B"] = .ok [⟨"App\\X", none⟩, ⟨"B", none⟩] := by decide +kernel
    obtain ⟨file', hread', hloses⟩ := ((remove_exact hnames).2 file t hread ht (.refl _) hremove).2 hprunable
    exact ⟨file, t, _, file', hread, ht, hlinks, hremove, hread', hloses⟩

/-- The links of the tests of a source, in order. -/
def FluentChain.allLinks (source : Text) : Option (List (List Link)) :=
  (FluentChain.File.read source).toOption.map fun file => file.tests.map (·.case.links)

/-- The links of the tests of a source, in order. -/
def AttributeList.allLinks (source : Text) : Option (List (List Link)) :=
  (AttributeList.File.read source).toOption.map fun file => file.tests.map (·.case.links)

/-- When links are removed from the first test of a source, the tests of which declare the links `before`, the
text `out` is left, and its tests declare the links `after`, or it is not read. -/
def FluentChain.Prunes (source : Text) (names : List Text) (before : List (List Link)) (out : Text)
    (after : Option (List (List Link))) : Prop :=
  allLinks source = some before ∧ removeFirst source names = some out ∧ allLinks out = after

instance (source : Text) (names : List Text) (before : List (List Link)) (out : Text)
    (after : Option (List (List Link))) : Decidable (FluentChain.Prunes source names before out after) :=
  inferInstanceAs (Decidable (_ ∧ _ ∧ _))

/-- When links are removed from the first test of a source, the tests of which declare the links `before`, the
text `out` is left, and its tests declare the links `after`, or it is not read. -/
def AttributeList.Prunes (source : Text) (names : List Text) (before : List (List Link)) (out : Text)
    (after : Option (List (List Link))) : Prop :=
  allLinks source = some before ∧ removeFirst source names = some out ∧ allLinks out = after

instance (source : Text) (names : List Text) (before : List (List Link)) (out : Text)
    (after : Option (List (List Link))) : Decidable (AttributeList.Prunes source names before out after) :=
  inferInstanceAs (Decidable (_ ∧ _ ∧ _))

/-- A class after a constant called `USE`, with these groups above its two methods, both of them tests. -/
def pairedSource (first second : Text) : Text :=
  "namespace N;\n#[X(F::USE)]\nclass T \x7b\n" ++ first ++
    "    function test_a() \x7breturn;\x7d\n" ++ second ++ "    function test_b() \x7b\x7d\n\x7d\n"

/-- What is required of the source is needed. -/
theorem remove_inexact :
    -- a slash and what follows the item that leaves make a comment
    FluentChain.Prunes "test('a')->links(/,'A'/*x*/);" ["A"] [[⟨⟨"A", none⟩, false⟩]]
      "test('a')->links(//*x*/);" none ∧
    -- a short tag and the name after the item that leaves make a long tag
    FluentChain.Prunes "<?php\ntest('a')->links(?><?'A', php::class);\n" ["A"]
      [[⟨⟨"A", none⟩, false⟩, ⟨⟨"php", none⟩, false⟩]] "<?php\ntest('a')->links(?><?php::class);\n"
      (some [[]]) ∧
    -- the import goes on to the semicolon, and its last name becomes another one
    FluentChain.Prunes
      "namespace N;\nuse X\ntest('a')->links(B::class)->note(1);\ntest('b')->links(B::class);\n" ["B"]
      [[⟨⟨"B", none⟩, false⟩], [⟨⟨"B", none⟩, false⟩]]
      "namespace N;\nuse X\ntest('a')->note(1);\ntest('b')->links(B::class);\n"
      (some [[], [⟨⟨"N\\B", none⟩, false⟩]]) ∧
    -- the comment that makes a test of the method comes to stand behind another one
    AttributeList.Prunes
      ("class T \x7b\n    /** @test */\n    #[Links(A::class)]\n" ++
        "    /** x */\n    function foo() \x7b\x7d\n\x7d\n") ["A"] [[⟨⟨"A", none⟩, false⟩]]
      "class T \x7b\n    /** @test */\n    /** x */\n    function foo() \x7b\x7d\n\x7d\n" (some []) ∧
    -- what stands before a group and what stands behind it make one word
    AttributeList.Prunes "class T \x7b foo #[Links(A::class)]function test_a() \x7b\x7d \x7d\n" ["A"]
      [[⟨⟨"A", none⟩, false⟩]] "class T \x7b foofunction test_a() \x7b\x7d \x7d\n" (some []) ∧
    -- the constant `USE` is taken for an import that goes on to the next semicolon, and its last name becomes
    -- another one
    AttributeList.Prunes (pairedSource "    #[Links(B::class)]\n" "    #[Links(B::class)]\n") ["B"]
      [[⟨⟨"B", none⟩, false⟩], [⟨⟨"B", none⟩, false⟩]] (pairedSource [] "    #[Links(B::class)]\n")
      (some [[], [⟨⟨"N\\B", none⟩, false⟩]]) ∧
    -- a bracket goes with the attribute before it, and the group is closed too early
    AttributeList.Prunes
      "class T \x7b #[Links(B::class), [/ Links(C::class)]]\nfunction test_a() \x7b\x7d \x7d\n" ["B"]
      [[⟨⟨"B", none⟩, false⟩, ⟨⟨"C", none⟩, false⟩]]
      "class T \x7b #[Links(C::class)]]\nfunction test_a() \x7b\x7d \x7d\n" none := by
  refine ⟨?_, ?_, ?_, ?_, ?_, ?_, ?_⟩
  all_goals decide +kernel

end Crosslink
