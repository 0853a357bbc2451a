import Crosslink.Proofs.Confining
import Crosslink.Proofs.Erasing

/-!
# Links written above a test and taken out again

Links that a test does not declare are written above it, each in a group of its own. Each of these groups
declares one of them and nothing else, so that they all go as a whole when the links are removed again, and
the other groups of the test are left alone. What is left is the source as it was, but for the blanks that
code follows after the last anchor.

* §1 `removeFromGroup_of_absent` and `removeFromGroup_of_declares`, what is removed from a group.
* §2 `exists_carved`, what injection makes of a source.
* §3 `removals_of_extended`, what removal takes out of it.
* §4 `remove_after_inject`, and `remove_after_inject_inexact`.
-/

namespace Crosslink.AttributeList

open Source Source.TokenSequence Edit

variable {source out : Text} {l l' : TokenSequence} {imports imports' : Imports} {m m' : Method}
  {targets : List Target} {w : Target} {covers : Bool} {a : Attribute} {g : AttributeGroup}
  {A gs B : List AttributeGroup}

/-! ## §1 One group -/

/-- The attributes of a group that declare links name none of these targets. -/
def Lacks (imports : Imports) (targets : List Target) (g : AttributeGroup) : Prop :=
  ∀ a ∈ g.attributes, a.isLink = true → ∀ w ∈ targets, a.target imports ≠ some w

theorem removeFromGroup_of_absent (h : Lacks imports targets g) :
    removeFromGroup source imports targets g = [] := by
  have hmarks : (marks imports targets g).any id = false := by
    rw [marks, List.any_map, List.any_eq_false]
    intro a ha hmarked
    obtain ⟨hlink, hnames⟩ := Bool.and_eq_true_iff.mp hmarked
    obtain ⟨w, hw, hmem⟩ := (Option.any_eq_true _ _).mp hnames
    exact h a ha hlink w (List.contains_iff_mem.mp hmem) hw
  rw [removeFromGroup, if_neg (by simp [hmarks])]

theorem isLink_of_declares (h : Declares imports covers w g) (ha : a ∈ g.attributes) :
    a.isLink = true := by
  obtain ⟨b, hattributes, hname, -⟩ := h
  rw [hattributes] at ha
  obtain rfl := List.mem_singleton.mp ha
  rw [Attribute.isLink, Attribute.isNamed, Attribute.isNamed, Attribute.shortName, hname]
  cases covers <;> decide +kernel

/-- A group that was written for one of the targets goes as a whole. -/
theorem removeFromGroup_of_declares (h : Declares imports covers w g) (hw : w ∈ targets)
    (hsame : ∀ a ∈ g.attributes, a.target imports' = a.target imports) :
    removeFromGroup source imports' targets g = [takeOut source g.span] := by
  obtain ⟨a, hattributes, -, htarget⟩ := id h
  have hmarks : marks imports' targets g = [true] := by
    have ha : a ∈ g.attributes := by rw [hattributes]; exact List.mem_cons_self
    rw [marks, hattributes, List.map_singleton, isLink_of_declares h ha, hsame a ha, htarget]
    simpa using hw
  rw [removeFromGroup, hmarks]
  rfl

theorem has_of_bears (h : Bears imports covers w g) : g.has testName = false := by
  obtain ⟨a, hattributes, hname, -⟩ := h
  rw [AttributeGroup.has, hattributes, List.any_cons, List.any_nil, Attribute.isNamed, Attribute.shortName,
    hname]
  cases covers <;> decide +kernel

/-- Groups that are written for some links stand each for one of them. -/
theorem exists_related {R : Target → AttributeGroup → Prop} {ws : List Target} (h : List.Forall₂ R ws gs)
    (hg : g ∈ gs) : ∃ w ∈ ws, R w g := by
  induction h with
  | nil => cases hg
  | @cons w d ws gs hfirst _ ih =>
    obtain rfl | hg := List.mem_cons.mp hg
    · exact ⟨w, List.mem_cons_self, hfirst⟩
    · obtain ⟨v, hv, hrelated⟩ := ih hg
      exact ⟨v, List.mem_cons_of_mem _ hv, hrelated⟩

theorem declares_of_bears_all {ws : List Target} (h : List.Forall₂ (Bears imports covers) ws gs)
    (hback : ∀ w ∈ ws, ReadsBack imports covers w) : List.Forall₂ (Declares imports covers) ws gs :=
  ((List.forall₂_and_left _ _).mpr ⟨hback, h⟩).imp fun _ _ hw => declares_of_bears hw.2 hw.1

theorem lacks_shift {d n : Nat} (h : Lacks imports targets g) : Lacks imports targets (g.shift d n) := by
  intro a ha hlink w hw
  obtain ⟨b, hb, rfl⟩ := List.mem_map.mp ha
  have htarget : (b.shift n).target imports = b.target imports := target_congr (by simp [Attribute.shift, Argument.shift])
  rw [htarget]
  exact h b hb hlink w hw

/-! ## §2 Injection into a source -/

/-- The links of a test do not name these targets if no group of its method declares one. -/
theorem lacks_of_links {className : Text}
    (h : ∀ k ∈ (testOf source imports className m).case.links, k.target ∉ targets) :
    ∀ g ∈ m.attributes, Lacks imports targets g := by
  intro g hg a ha hlink w hw htarget
  have hgroup : g ∈ groupsWithLinks m := List.mem_filter.mpr ⟨hg, List.any_eq_true.mpr ⟨a, ha, hlink⟩⟩
  have hattribute : a ∈ linkAttributes m :=
    List.mem_flatMap.mpr ⟨g, hgroup, List.mem_filter.mpr ⟨ha, hlink⟩⟩
  refine h ⟨w, a.isNamed linksAndCoversName⟩ (List.mem_filterMap.mpr ⟨a, hattribute, ?_⟩) hw
  rw [linkOf, htarget]
  rfl

/-- Where a link is not declared its group is added. -/
theorem injectOne_of_absent (h : ∀ g ∈ m.attributes, Lacks imports targets g) (hw : w ∈ targets) :
    injectOne source imports m covers w =
      [Edit.addLine source (anchors m) m.headStart (writeGroup imports w covers)] := by
  have hnone : ((linkAttributes m).filter fun a => a.target imports = some w) = [] := by
    refine List.filter_eq_nil_iff.mpr fun a ha htarget => ?_
    obtain ⟨g, hg, ha⟩ := List.mem_flatMap.mp ha
    obtain ⟨ha, hlink⟩ := List.mem_filter.mp ha
    exact h g (List.mem_filter.mp hg).1 a ha hlink w hw (of_decide_eq_true htarget)
  rw [injectOne, hnone]

/-- The offset at which links are written above a method. -/
def linkOffset (source : Text) (m : Method) : Nat :=
  (Edit.addLine source (anchors m) m.headStart []).span.start

/-- What a source becomes when groups for some links are written above one of its tests. -/
structure Carved (source out : Text) (l l' : TokenSequence) (covers : Bool) (ws : List Target) (i : Nat)
    (m m' : Method) (className : Text) (A gs B : List AttributeGroup) : Prop where
  read : tokenize out = .ok l'
  extended : Method.Extended source out m A gs B m'
  length : ((l'.classes out).flatMap (testsIn out (Imports.ofTokens l'))).length =
    ((l.classes source).flatMap (testsIn source (Imports.ofTokens l))).length
  test : ((l'.classes out).flatMap (testsIn out (Imports.ofTokens l')))[i]? =
    some (testOf out (Imports.ofTokens l') className m')
  confined : Confined i (((l.classes source).flatMap (testsIn source (Imports.ofTokens l))).map Test.case)
    (((l'.classes out).flatMap (testsIn out (Imports.ofTokens l))).map Test.case)
  bears : List.Forall₂ (Bears (Imports.ofTokens l) covers) ws gs
  /-- The groups after them hold no links. -/
  rest : ∀ g ∈ B, g.holdsLink = false
  /-- The groups are taken out together. -/
  erase : (Abuts source (anchors m) → ws.length ≤ 1) →
    applyEdit out (gs.map fun g => takeOut out g.span) = .ok (respaced source (anchors m))
  imports : Uncrossed l (pointOf l (anchorsBy AttributeGroup.holdsLink m) m.headStart) →
    (∀ w ∈ ws, NamesNoStatement (Imports.ofTokens l) w) → Imports.ofTokens l' = Imports.ofTokens l ∧
      ∀ start stop, stop ≤ linkOffset source m → ClearBetween source start stop → ClearBetween out start stop

theorem exists_carved {C₁ C₂ : List DeclaredClass} {c : DeclaredClass} {ms ms' : List Method}
    {ws : List Target} (hl : tokenize source = .ok l) (hclasses : l.classes source = C₁ ++ c :: C₂)
    (hmethods : c.methods = ms ++ m :: ms') (htest : isTest source m = true) (hne : ws ≠ [])
    (hspelled : ∀ w ∈ ws, Spelled (Imports.ofTokens l) w)
    (htag : ∀ w ∈ ws, "<?".toList <:+: writeGroup (Imports.ofTokens l) w covers → "<?".toList <:+: source) :
    ∃ out l' m' A gs B, applyEdit source (ws.map fun w =>
        Edit.addLine source (anchors m) m.headStart (writeGroup (Imports.ofTokens l) w covers)) = .ok out ∧
      Carved source out l l' covers ws ((C₁.flatMap (testsIn source (Imports.ofTokens l))).length +
        (ms.filter (isTest source)).length) m m' c.name A gs B := by
  obtain ⟨k, P, Q, before, after, A, B, hsetting⟩ :=
    exists_setting AttributeGroup.holdsLink hl hclasses hmethods
  obtain ⟨is, htexts, hreads, hquiet⟩ := exists_inscriptions hspelled covers
  have hlength : is.length = ws.length := by simpa using congrArg List.length htexts
  have hne' : is ≠ [] := List.length_pos_iff.mp (by rw [hlength]; exact List.length_pos_iff.mpr hne)
  obtain ⟨l', gs, hl', hwritten, hspans, hgs, himports⟩ := hsetting.exists_written hl hne' hreads
    fun I hI h => by
      obtain ⟨w, hw, he⟩ := List.mem_map.mp (htexts ▸ List.mem_map_of_mem hI)
      exact htag w hw (he ▸ h)
  have hmarks : ∀ g ∈ gs, g.has testName = false := fun g hg => by
    obtain ⟨w, -, hw⟩ := exists_related hgs hg
    exact has_of_bears hw
  obtain ⟨m', hm', htests, hconfined⟩ := exists_test_written hmethods htest hwritten hmarks
  obtain ⟨hcount, ht'⟩ := htests (Imports.ofTokens l) (Imports.ofTokens l')
  replace hconfined := hconfined (Imports.ofTokens l)
  rw [← hclasses] at hcount hconfined
  refine ⟨_, l', m', A, gs, B, ?_, hl', hm', hcount, ht', hconfined, hgs, hsetting.rest,
    fun hone => ?_, fun huncrossed hnames => ?_⟩
  · have happly := hsetting.apply_eq is
    rw [← Function.comp_def (Edit.addLine source _ _) Inscription.text, ← List.map_map, htexts,
      List.map_map] at happly
    exact happly
  · have happly := hsetting.berth.layout.apply_takeOut hsetting.source_eq hne'
      fun h => hlength ▸ hone h
    rw [← Reading.extent, ← hspans, List.map_map] at happly
    exact happly
  · rw [hsetting.point.eq_pointOf hl] at himports
    have hoffset : linkOffset source m = Reading.extent P :=
      congrArg (fun s => s.span.start) (hsetting.berth.insert [])
    rw [hoffset]
    exact himports huncrossed (hquiet hnames)

/-! ## §3 Removal from the result -/

/-- The links of a test name the same targets with other imports. -/
def Test.ReadAlike (imports imports' : Imports) (t : Test) : Prop :=
  ∀ a ∈ t.linkAttributes, a.target imports' = a.target imports

/-- Nothing is removed from groups that declare no links. -/
theorem flatMap_groupsWithLinks (source : Text) (imports : Imports) (targets : List Target) (m : Method) :
    (groupsWithLinks m).flatMap (removeFromGroup source imports targets) =
      m.attributes.flatMap (removeFromGroup source imports targets) := by
  rw [groupsWithLinks]
  induction m.attributes with
  | nil => rfl
  | cons g groups ih =>
    rw [List.filter_cons, List.flatMap_cons]
    split
    · rw [List.flatMap_cons, ih]
    · rename_i hg
      have hlacks : Lacks imports targets g := fun a ha hlink =>
        absurd (List.any_eq_true.mpr ⟨a, ha, hlink⟩) hg
      rw [ih, removeFromGroup_of_absent hlacks, List.nil_append]

/-- Of the groups of a method the new ones go, each as a whole. -/
theorem removals_of_extended {ws : List Target} {t' : Test} (hm : Method.Extended source out m A gs B m')
    (ht' : t'.method = m') (hgs : List.Forall₂ (Declares imports covers) ws gs) (hws : ∀ w ∈ ws, w ∈ targets)
    (hold : ∀ g ∈ m.attributes, Lacks imports targets g) (hsame : t'.ReadAlike imports imports') :
    (groupsWithLinks m').flatMap (removeFromGroup out imports' targets) =
      gs.map fun g => takeOut out g.span := by
  obtain ⟨d, n, hattributes⟩ := hm.attributes
  -- the links of a group of the method name the same targets with both imports
  have hread : ∀ g ∈ m'.attributes, ∀ a ∈ g.attributes, a.isLink = true →
      a.target imports' = a.target imports := fun g hg a ha hlink => by
    refine hsame a (List.mem_flatMap.mpr ⟨g, ?_, List.mem_filter.mpr ⟨ha, hlink⟩⟩)
    exact List.mem_filter.mpr ⟨ht' ▸ hg, List.any_eq_true.mpr ⟨a, ha, hlink⟩⟩
  have hnone : ∀ groups : List AttributeGroup, (∀ g ∈ groups, g ∈ m'.attributes ∧ Lacks imports targets g) →
      groups.flatMap (removeFromGroup out imports' targets) = [] := fun groups hgroups => by
    refine List.flatMap_eq_nil_iff.mpr fun g hg => removeFromGroup_of_absent fun a ha hlink w hw => ?_
    rw [hread g (hgroups g hg).1 a ha hlink]
    exact (hgroups g hg).2 a ha hlink w hw
  have hnew : gs.flatMap (removeFromGroup out imports' targets) = gs.map fun g => takeOut out g.span := by
    rw [← List.flatMap_singleton' (gs.map _), List.flatMap_map]
    refine List.flatMap_congr fun g hg => ?_
    obtain ⟨w, hw, hdeclares⟩ := exists_related hgs hg
    refine removeFromGroup_of_declares hdeclares (hws w hw) fun a ha => ?_
    exact hread g (by rw [hattributes]; simp [hg]) a ha (isLink_of_declares hdeclares ha)
  have hbefore := hnone A fun g hg =>
    ⟨by rw [hattributes]; simp [hg], hold g (by rw [hm.old]; simp [hg])⟩
  have hbehind := hnone (B.map (AttributeGroup.shift d n)) fun g' hg' => by
    refine ⟨by rw [hattributes]; simp only [List.mem_append, hg', or_true], ?_⟩
    obtain ⟨g, hg, rfl⟩ := List.mem_map.mp hg'
    exact lacks_shift (hold g (by rw [hm.old]; simp [hg]))
  rw [flatMap_groupsWithLinks, hattributes, List.flatMap_append, List.flatMap_append, hnew, hbefore, hbehind,
    List.nil_append, List.append_nil]

/-! ## §4 Links written and removed -/

/-- No declaration of a namespace and no statement that imports classes reaches across the place where
groups are written above a test. -/
def ClearOfImports (source : Text) (t : Test) : Prop :=
  ∀ l, tokenize source = .ok l →
    Uncrossed l (pointOf l (anchorsBy AttributeGroup.holdsLink t.method) t.method.headStart)

theorem inject_eq {file : File} {t : Test} {r : TestCase} {names : List Text}
    (hlocate : locate source r = .ok (file, t)) (hnames : parseTargets names = .ok targets)
    (h : ∀ g ∈ t.method.attributes, Lacks file.imports targets g) (covers : Bool) :
    inject source r names covers = applyEdit source (targets.eraseDups.map fun w =>
      Edit.addLine source (anchors t.method) t.method.headStart (writeGroup file.imports w covers)) := by
  have hsplices : targets.eraseDups.flatMap (injectOne source file.imports t.method covers) =
      targets.eraseDups.map fun w =>
        Edit.addLine source (anchors t.method) t.method.headStart (writeGroup file.imports w covers) := by
    rw [← List.flatMap_singleton' (targets.eraseDups.map _), List.flatMap_map]
    exact List.flatMap_congr fun w hw => injectOne_of_absent h (List.mem_eraseDups.mp hw)
  simp only [inject, hlocate, hnames, bind, Except.bind, hsplices]

theorem remove_eq {file : File} {t : Test} {r : TestCase} {names : List Text}
    (hlocate : locate source r = .ok (file, t)) (hnames : parseTargets names = .ok targets) :
    remove source r names = applyEdit source
      ((groupsWithLinks t.method).flatMap (removeFromGroup source file.imports targets)) := by
  simp only [remove, hlocate, hnames, bind, Except.bind]

/-- **Links written and removed.** Links that a test does not declare can be written above it, and the
source that is left when they are removed again is the source as it was, wherever the links of the test
name the targets they name with the imports of that source, and but for the blanks that code follows
after the last anchor, which are one space then. If code follows there without a blank, this is so for
one link. -/
theorem remove_after_inject {file : File} {i : Nat} {t : Test} {r : TestCase} {names : List Text}
    (hread : File.read source = .ok file) (ht : file.tests[i]? = some t)
    (hr : FluentChain.Recorded t.case r) (hnames : parseTargets names = .ok targets)
    (habsent : ∀ k ∈ t.case.links, k.target ∉ targets)
    (hback : ∀ w ∈ targets, ReadsBack file.imports covers w)
    (htag : ∀ w ∈ targets, "<?".toList <:+: writeGroup file.imports w covers → "<?".toList <:+: source) :
    ∃ out file' t', inject source r names covers = .ok out ∧ File.read out = .ok file' ∧
      file'.tests.length = file.tests.length ∧ file'.tests[i]? = some t' ∧
      (t'.ReadAlike file.imports file'.imports →
        (Abuts source (anchors t.method) → targets.eraseDups.length ≤ 1) →
        ∀ r', FluentChain.Recorded t'.case r' → remove out r' names =
          .ok (if targets = [] then source else respaced source (anchors t.method))) ∧
      (ClearOfImports source t → (∀ w ∈ targets, NamesNoStatement file.imports w) →
        t'.ReadAlike file.imports file'.imports) := by
  have hlocate := locate_eq hread ht hr
  obtain ⟨l, hl, rfl⟩ := exists_read hread
  obtain ⟨C₁, c, C₂, ms, m, ms', hclasses, hmethods, htest, rfl, hi⟩ := exists_method ht
  have hlacks := lacks_of_links habsent
  have hinject := inject_eq hlocate hnames hlacks covers
  by_cases hne : targets = []
  · subst hne
    refine ⟨source, _, _, hinject.trans (applyEdit_nil source), hread, rfl, ht, fun _ _ r' hr' => ?_,
      fun _ _ a _ => rfl⟩
    have hremovals : ∀ groups : List AttributeGroup,
        groups.flatMap (removeFromGroup source (Imports.ofTokens l) []) = [] := fun groups =>
      List.flatMap_eq_nil_iff.mpr fun g _ => removeFromGroup_of_absent fun _ _ _ w hw => by cases hw
    rw [remove_eq (locate_eq hread ht hr') hnames, hremovals, applyEdit_nil, if_pos rfl]
  · have hmem : ∀ w ∈ targets.eraseDups, w ∈ targets := fun w hw => List.mem_eraseDups.mp hw
    have hne' : targets.eraseDups ≠ [] := by
      obtain ⟨w, ws, rfl⟩ := List.exists_cons_of_ne_nil hne
      exact List.ne_nil_of_mem (List.mem_eraseDups.mpr (List.mem_cons_self (a := w)))
    obtain ⟨out, l', m', A, gs, B, happly, hcarved⟩ := exists_carved hl hclasses hmethods htest hne'
      (fun w hw => spelled_of_readsBack (hback w (hmem w hw))) fun w hw => htag w (hmem w hw)
    have hread' := read_eq hcarved.read
    have ht' := hcarved.test
    rw [← hi] at ht'
    refine ⟨out, _, _, hinject.trans happly, hread', hcarved.length, ht', fun hsame hone r' hr' => ?_,
      fun hclear hnames' a _ => ?_⟩
    · have hremovals := removals_of_extended hcarved.extended rfl
        (declares_of_bears_all hcarved.bears fun w hw => hback w (hmem w hw)) hmem hlacks hsame
      rw [remove_eq (locate_eq hread' ht' hr') hnames, if_neg hne]
      exact (congrArg _ hremovals).trans (hcarved.erase hone)
    · rw [(hcarved.imports (hclear l hl) fun w hw => hnames' w (hmem w hw)).1]

theorem clearOfImports_of_neverCrosses {t : Test} {steps : Nat}
    (h : ((tokenize source).toOption.all fun l =>
      neverCrosses l (pointOf l (anchorsBy AttributeGroup.holdsLink t.method) t.method.headStart) steps {} 0) =
        true) : ClearOfImports source t := by
  intro l hl
  rw [hl] at h
  exact uncrossed_of_neverCrosses h

/-- A test marked as one on the line where it begins. -/
def markedSource : Text :=
  "<?php\nuse App\\X;\nclass T \x7b\n    #[Test] public function a() \x7b\x7d\n\x7d\n"

/-- Two links, one of them asked for twice, go between the mark and the method and out again. -/
theorem remove_after_inject_sample : ∃ file t out file' t', File.read markedSource = .ok file ∧
    file.tests[0]? = some t ∧ t.case.links = [] ∧
    inject markedSource t.case ["App\\X", "C", "App\\X"] true = .ok out ∧ File.read out = .ok file' ∧
    file'.tests[0]? = some t' ∧ remove out t'.case ["App\\X", "C", "App\\X"] = .ok markedSource := by
  have h : ((File.read markedSource).toOption.any fun file => file.tests[0]?.any fun t =>
      (t.case.links = [] && respaced markedSource (anchors t.method) = markedSource &&
        !decide (Abuts markedSource (anchors t.method)) && ((tokenize markedSource).toOption.all fun l =>
          neverCrosses l (pointOf l (anchorsBy AttributeGroup.holdsLink t.method) t.method.headStart) 40 {} 0)) &&
        ([⟨"App\\X", none⟩, ⟨"C", none⟩, ⟨"App\\X", none⟩] : List Target).all fun w =>
          ReadsBack file.imports true w && NamesNoStatement file.imports w) = true := by decide +kernel
  obtain ⟨file, hfile, h⟩ := (Option.any_eq_true _ _).mp h
  obtain ⟨t, ht, h⟩ := (Option.any_eq_true _ _).mp h
  obtain ⟨htest, hwritten⟩ := Bool.and_eq_true_iff.mp h
  simp only [Bool.and_eq_true, decide_eq_true_eq, Bool.not_eq_true', decide_eq_false_iff_not] at htest
  obtain ⟨⟨⟨hlinks, hspaced⟩, habuts⟩, hnever⟩ := htest
  have hread := eq_ok_of_toOption hfile
  have hall : ∀ w ∈ ([⟨"App\\X", none⟩, ⟨"C", none⟩, ⟨"App\\X", none⟩] : List Target),
      ReadsBack file.imports true w ∧ NamesNoStatement file.imports w := fun w hw => by
    have := List.all_eq_true.mp hwritten w hw
    simpa only [Bool.and_eq_true, decide_eq_true_eq] using this
  have hnames : parseTargets ["App\\X", "C", "App\\X"] =
      .ok [⟨"App\\X", none⟩, ⟨"C", none⟩, ⟨"App\\X", none⟩] := by decide +kernel
  obtain ⟨out, file', t', hout, hread', -, ht', hremove, hsame⟩ := remove_after_inject hread ht (.refl _) hnames
    (by simp [hlinks]) (fun w hw => (hall w hw).1) fun w hw _ => by decide +kernel
  refine ⟨file, t, out, file', t', hread, ht, hlinks, hout, hread', ht', ?_⟩
  rw [hremove (hsame (clearOfImports_of_neverCrosses hnever) fun w hw => (hall w hw).2)
    (fun h => absurd h habuts) _ (.refl _), if_neg (by simp), hspaced]

/-- The first test of a source. -/
def firstTest (source : Text) : Option Test := (File.read source).toOption.bind (·.tests[0]?)

/-- What a source becomes when links are written above its first test. -/
def injectFirst (source : Text) (names : List Text) (covers : Bool) : Option Text :=
  (firstTest source).bind fun t => (inject source t.case names covers).toOption

/-- What a source becomes when links are removed from its first test. -/
def removeFirst (source : Text) (names : List Text) : Option Text :=
  (firstTest source).bind fun t => (remove source t.case names).toOption

/-- The splices that make an edit of the first test of a source, as they stand. -/
def firstSplices (source : Text) (names : List Text) (splicesOf : File → Test → List Target → List Splice) :
    Option (List Splice) :=
  (File.read source).toOption.bind fun file => file.tests[0]?.bind fun t =>
    (parseTargets names).toOption.map (splicesOf file t)

theorem injectFirst_of_sorted {names : List Text} {splices : List Splice}
    (h : firstSplices source names (fun file t targets =>
      targets.eraseDups.flatMap (injectOne source file.imports t.method covers)) = some splices)
    (hsorted : splices.Pairwise fun a b => Splice.le a b = true)
    (hout : Splice.applyInOrder source splices = .ok out) : injectFirst source names covers = some out := by
  obtain ⟨file, hfile, h⟩ := Option.bind_eq_some_iff.mp h
  obtain ⟨t, ht, h⟩ := Option.bind_eq_some_iff.mp h
  obtain ⟨targets, htargets, rfl⟩ := Option.map_eq_some_iff.mp h
  have hlocate := locate_eq (eq_ok_of_toOption hfile) ht (.refl _)
  rw [injectFirst, firstTest, hfile, Option.bind_some, ht, Option.bind_some]
  simp only [inject, hlocate, eq_ok_of_toOption htargets, bind, Except.bind, applyEdit_of_sorted hsorted, hout]
  rfl

theorem removeFirst_of_sorted {names : List Text} {splices : List Splice} {e : SpliceError}
    (h : firstSplices source names (fun file t targets =>
      (groupsWithLinks t.method).flatMap (removeFromGroup source file.imports targets)) = some splices)
    (hsorted : splices.Pairwise fun a b => Splice.le a b = true)
    (hclash : Splice.applyInOrder source splices = .error e) : removeFirst source names = none := by
  obtain ⟨file, hfile, h⟩ := Option.bind_eq_some_iff.mp h
  obtain ⟨t, ht, h⟩ := Option.bind_eq_some_iff.mp h
  obtain ⟨targets, htargets, rfl⟩ := Option.map_eq_some_iff.mp h
  have hlocate := locate_eq (eq_ok_of_toOption hfile) ht (.refl _)
  rw [removeFirst, firstTest, hfile, Option.bind_some, ht, Option.bind_some,
    remove_eq hlocate (eq_ok_of_toOption htargets), applyEdit_of_sorted hsorted, hclash]
  rfl

/-- The first test of a source declares no link, and links to these targets are read back. -/
def Takes (source : Text) (names : List Text) : Prop :=
  (firstTest source).map (·.case.links) = some [] ∧
    ((File.read source).toOption.any fun file => (parseTargets names).toOption.any fun targets =>
      targets.all fun w => ReadsBack file.imports false w) = true

instance (source : Text) (names : List Text) : Decidable (Takes source names) :=
  inferInstanceAs (Decidable (_ ∧ _))

/-- A test with a group before it and what stands between them. -/
def gapSource (gap : Text) : Text := "class T \x7b #[Test]" ++ gap ++ "public function a() \x7b\x7d \x7d\n"

/-- A class after a constant called `USE`, with this group above its only method, a test. -/
def crossedSource (group : Text) : Text :=
  "<?php\nnamespace App;\n#[Attr(Foo::USE)]\nclass A \x7b\n" ++ group ++
    "    public function test_f() \x7b return 1; \x7d\n\x7d\n"

/-- What is required of the groups and of the place is needed. -/
theorem remove_after_inject_inexact :
    -- two spaces after the last group come to be one
    (Takes (gapSource "  ") ["X"] ∧
      injectFirst (gapSource "  ") ["X"] false = some (gapSource " #[Links(X::class)]  ") ∧
      removeFirst (gapSource " #[Links(X::class)]  ") ["X"] = some (gapSource " ")) ∧
    -- of two groups before a word that no blank precedes, both claim the blank between them
    (Takes (gapSource []) ["X", "Y"] ∧
      injectFirst (gapSource []) ["X", "Y"] false = some (gapSource " #[Links(X::class)] #[Links(Y::class)]") ∧
      removeFirst (gapSource " #[Links(X::class)] #[Links(Y::class)]") ["X", "Y"] = none) ∧
    -- a tag in a group makes inline markup of what was code, and no test is left
    (Takes (gapSource " ") ["X::<?"] ∧
      injectFirst (gapSource " ") ["X::<?"] false = some (gapSource " #[Links(X::class, '<?')] ") ∧
      firstTest (gapSource " #[Links(X::class, '<?')] ") = none) ∧
    -- the constant `USE` is taken for an import that goes on to the next semicolon, the name that is written
    -- becomes one of its classes, and the link names another target
    (Takes (crossedSource []) ["App\\Links"] ∧
      injectFirst (crossedSource []) ["App\\Links"] false =
        some (crossedSource "    #[Links(Links::class)]\n") ∧
      removeFirst (crossedSource "    #[Links(Links::class)]\n") ["App\\Links"] =
        some (crossedSource "    #[Links(Links::class)]\n")) := by
  refine ⟨⟨?_, ?_, ?_⟩, ⟨by decide +kernel, ?_, ?_⟩, ⟨?_, ?_, ?_⟩, ?_, ?_, ?_⟩
  case refine_4 =>
    have hsplices : firstSplices (gapSource []) ["X", "Y"] (fun file t targets => targets.eraseDups.flatMap
        (injectOne (gapSource []) file.imports t.method false)) =
        some [.insert 17 " #[Links(X::class)]", .insert 17 " #[Links(Y::class)]"] := by decide +kernel
    exact injectFirst_of_sorted hsplices (by decide) (by decide +kernel)
  case refine_5 =>
    have hsplices : firstSplices (gapSource " #[Links(X::class)] #[Links(Y::class)]") ["X", "Y"]
        (fun file t targets => (groupsWithLinks t.method).flatMap (removeFromGroup
          (gapSource " #[Links(X::class)] #[Links(Y::class)]") file.imports targets)) =
        some [.delete ⟨18, 37⟩, .delete ⟨36, 55⟩] := by decide +kernel
    exact removeFirst_of_sorted hsplices (by decide) (e := .overlap ⟨18, 37⟩ ⟨36, 55⟩) (by decide +kernel)
  all_goals decide +kernel

end Crosslink.AttributeList
