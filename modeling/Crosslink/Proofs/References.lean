import Crosslink.Proofs.Outlines

/-!
# Writing back-references

Back-references are written to a method that a target names, each in a group of its own. They are
read back as tests of that method, below the tests it had, and nothing else that is read changes. So
writing them again changes nothing.

* §1 `unlike`, the references that are not there, and `missing_eq`.
* §2 `findMethod_split`, the method that a target names, and `Noted`.
* §3 `inject_noted`, and `inject_misread`.
-/

namespace Crosslink

/-! ## §1 References that are not there -/

namespace BackReference

variable {a b c : BackReference}

theorem same_iff : a.same b = true ↔ a = b ∨ a.container = b.container ∧ a.key.isSome ∧ a.key = b.key := by
  simp [same, and_assoc]

theorem same_refl (a : BackReference) : a.same a = true := same_iff.mpr (.inl rfl)

theorem same_trans (h : a.same b = true) (h' : b.same c = true) : a.same c = true := by
  rw [same_iff] at h h' ⊢
  obtain rfl | ⟨hc, hs, hk⟩ := h
  · exact h'
  · obtain rfl | ⟨hc', -, hk'⟩ := h'
    · exact .inr ⟨hc, hs, hk⟩
    · exact .inr ⟨hc.trans hc', hs, hk.trans hk'⟩

end BackReference

namespace Production

/-- The references of a list that are not the same as one of those that exist or as one before them. -/
def unlike (existing tests : List BackReference) : List BackReference :=
  (tests.zipIdx.filter fun x => !(existing ++ tests.take x.2).any (·.same x.1)).map Prod.fst

theorem missing_eq (existing tests : List BackReference) : missing existing tests = unlike existing tests := by
  -- what is there already stands for all that came before
  suffices hall : ∀ (rest earlier known : List BackReference),
      (∀ r, known.any (·.same r) = (existing ++ earlier).any (·.same r)) →
      missing known rest = ((rest.zipIdx earlier.length).filter fun x =>
        !(existing ++ (earlier ++ rest).take x.2).any (·.same x.1)).map Prod.fst from
    hall tests [] existing fun r => by rw [List.append_nil]
  intro rest
  induction rest with
  | nil => exact fun earlier known _ => rfl
  | cons r rest ih =>
    intro earlier known hknown
    have hearlier : earlier ++ r :: rest = (earlier ++ [r]) ++ rest := by simp
    have hlength : earlier.length + 1 = (earlier ++ [r]).length := by simp
    have hadd : ∀ d : BackReference, (existing ++ (earlier ++ [r])).any (·.same d) =
        ((existing ++ earlier).any (·.same d) || r.same d) := fun d => by
      rw [← List.append_assoc, List.any_append, List.any_cons, List.any_nil, Bool.or_false]
    rw [missing, List.zipIdx_cons, List.filter_cons, hknown]
    simp only [List.take_left]
    by_cases hr : (existing ++ earlier).any (·.same r) = true
    · rw [if_pos hr, hr, if_neg (by simp), hlength, hearlier]
      refine ih _ _ fun d => ?_
      -- what is the same as `r` is the same as what `r` is the same as
      rw [hknown, hadd]
      by_cases hd : r.same d = true
      · obtain ⟨e, he, hsame⟩ := List.any_eq_true.mp hr
        have hlike : (existing ++ earlier).any (·.same d) = true :=
          List.any_eq_true.mpr ⟨e, he, BackReference.same_trans hsame hd⟩
        rw [hlike, Bool.true_or]
      · simp [Bool.eq_false_iff.mpr hd]
    · rw [if_neg hr, Bool.eq_false_iff.mpr hr, if_pos (show (!false) = true by rfl), List.map_cons, hlength, hearlier]
      congr 1
      refine ih _ _ fun d => ?_
      rw [List.any_append, hknown, hadd, List.any_cons, List.any_nil, Bool.or_false]

theorem any_missing (existing : List BackReference) {tests : List BackReference} {r : BackReference}
    (hr : r ∈ tests) : (existing ++ missing existing tests).any (·.same r) = true := by
  induction tests generalizing existing with
  | nil => cases hr
  | cons d tests ih =>
    rw [missing]
    split
    · rename_i hd
      obtain rfl | hr := List.mem_cons.mp hr
      · rw [List.any_append, hd, Bool.true_or]
      · exact ih existing hr
    · obtain rfl | hr := List.mem_cons.mp hr
      · exact List.any_eq_true.mpr ⟨r, by simp, BackReference.same_refl r⟩
      · rw [List.append_cons]
        exact ih _ hr

theorem missing_eq_nil {existing tests : List BackReference}
    (h : ∀ r ∈ tests, existing.any (·.same r) = true) : missing existing tests = [] := by
  induction tests with
  | nil => rfl
  | cons r tests ih =>
    rw [missing, if_pos (h r (by simp))]
    exact ih fun d hd => h d (List.mem_cons_of_mem _ hd)

/-- Once the missing references are there, none is missing. -/
theorem missing_missing (existing tests : List BackReference) :
    missing (existing ++ missing existing tests) tests = [] :=
  missing_eq_nil fun _ hr => any_missing existing hr

theorem mem_of_mem_missing {existing tests : List BackReference} {r : BackReference}
    (h : r ∈ missing existing tests) : r ∈ tests := by
  induction tests generalizing existing with
  | nil => cases h
  | cons d tests ih =>
    rw [missing] at h
    split at h
    · exact List.mem_cons_of_mem _ (ih h)
    · obtain rfl | h := List.mem_cons.mp h
      · exact List.mem_cons_self
      · exact List.mem_cons_of_mem _ (ih h)

open Source Source.TokenSequence

variable {source : Text} {l l' : TokenSequence} {imports : Imports} {k : Nat} {rs : List BackReference}
  {r : BackReference}

/-! ## §2 The method that a target names -/

variable {className name : Text} {method : Source.Method} {classes : List DeclaredClass}

theorem findMethod_cons (imports : Imports) (c : DeclaredClass) (classes : List DeclaredClass)
    (className name : Text) : findMethod imports (c :: classes) className name =
      if Text.sameLetters (fullName imports c) className then
        (c.methods.find? fun m => Text.sameLetters m.name name).or
          (findMethod imports classes className name)
      else findMethod imports classes className name := by
  unfold findMethod
  rw [List.filter_cons]
  split
  · rw [List.flatMap_cons, List.find?_append]
  · rfl

/-- The method that is found stands in the first class that goes by the name and has such a method, as
the first such method there. -/
theorem findMethod_split (h : findMethod imports classes className name = some method) :
    ∃ C₁ c C₂ ms ms', classes = C₁ ++ c :: C₂ ∧ c.methods = ms ++ method :: ms' ∧
      Text.sameLetters (fullName imports c) className = true ∧ Text.sameLetters method.name name = true ∧
      (∀ d ∈ C₁, Text.sameLetters (fullName imports d) className = true →
        ∀ m ∈ d.methods, Text.sameLetters m.name name = false) ∧
      ∀ m ∈ ms, Text.sameLetters m.name name = false := by
  induction classes with
  | nil => cases h
  | cons c classes ih =>
    rw [findMethod_cons] at h
    -- either it stands in the first class, or that class has no such method
    obtain ⟨hc, h⟩ | ⟨hclass, hfind⟩ : ((Text.sameLetters (fullName imports c) className = true →
          ∀ m ∈ c.methods, Text.sameLetters m.name name = false) ∧
        findMethod imports classes className name = some method) ∨
        Text.sameLetters (fullName imports c) className = true ∧
          (c.methods.find? fun m => Text.sameLetters m.name name) = some method := by
      split at h
      · rename_i hclass
        cases hfind : c.methods.find? fun m => Text.sameLetters m.name name with
        | none =>
          rw [hfind, Option.none_or] at h
          exact .inl ⟨fun _ m hm => Bool.eq_false_iff.mpr (List.find?_eq_none.mp hfind m hm), h⟩
        | some m =>
          rw [hfind] at h
          exact .inr ⟨hclass, h⟩
      · rename_i hclass
        exact .inl ⟨fun hc => absurd hc hclass, h⟩
    · obtain ⟨C₁, d, C₂, ms, ms', rfl, hd, hclass, hmethod, hbefore, hms⟩ := ih h
      refine ⟨c :: C₁, d, C₂, ms, ms', rfl, hd, hclass, hmethod, fun e he => ?_, hms⟩
      obtain rfl | he := List.mem_cons.mp he
      · exact hc
      · exact hbefore e he
    · obtain ⟨hmethod, ms, ms', hsplit, hms⟩ := List.find?_eq_some_iff_append.mp hfind
      exact ⟨[], c, classes, ms, ms', rfl, hsplit, hclass, hmethod, by simp,
        fun m hm => by simpa using hms m hm⟩

/-- What is told of the first method of an outline that goes by these names. -/
def findTold (o : Outline) (className name : Text) : Option (Text × List BackReference) :=
  ((o.filter fun c => Text.sameLetters c.1 className).flatMap Prod.snd).find? fun m =>
    Text.sameLetters m.1 name

/-- What is told of the method that is found can be found in what is told of the classes. -/
theorem tell_findMethod (imports : Imports) (classes : List DeclaredClass) (className name : Text) :
    (findMethod imports classes className name).map (tell imports) =
      findTold (outline imports classes) className name := by
  induction classes with
  | nil => rfl
  | cons c classes ih =>
    have hcons : ∀ (x : Text × List (Text × List BackReference)) (o : Outline),
        findTold (x :: o) className name = if Text.sameLetters x.1 className then
          (x.2.find? fun m => Text.sameLetters m.1 name).or (findTold o className name)
        else findTold o className name := by
      intro x o
      unfold findTold
      rw [List.filter_cons]
      split
      · rw [List.flatMap_cons, List.find?_append]
      · rfl
    have houtline : outline imports (c :: classes) =
        (fullName imports c, c.methods.map (tell imports)) :: outline imports classes := rfl
    rw [findMethod_cons, houtline, hcons]
    split
    · rw [Option.map_or, ih, List.find?_map]
      rfl
    · exact ih

/-- Of two outlines, the second tells these tests too of the first method that goes by these names,
those that are new in order after the others, and is like the first otherwise. -/
inductive Noted (className name : Text) (tests : List BackReference) : Outline → Outline → Prop
  | intro {C₁ C₂ : Outline} {c n : Text} {ms ms' : List (Text × List BackReference)}
      {old : List BackReference} (of_class : Text.sameLetters c className = true)
      (of_method : Text.sameLetters n name = true)
      (first_class : ∀ d ∈ C₁, Text.sameLetters d.1 className = true →
        ∀ m ∈ d.2, Text.sameLetters m.1 name = false)
      (first_method : ∀ m ∈ ms, Text.sameLetters m.1 name = false) :
      Noted className name tests (C₁ ++ (c, ms ++ (n, old) :: ms') :: C₂)
        (C₁ ++ (c, ms ++ (n, old ++ unlike old tests) :: ms') :: C₂)

theorem findTold_split {C₁ C₂ : Outline} {c n : Text} {ms ms' : List (Text × List BackReference)}
    {tests : List BackReference} (hclass : Text.sameLetters c className = true)
    (hmethod : Text.sameLetters n name = true)
    (hbefore : ∀ d ∈ C₁, Text.sameLetters d.1 className = true →
      ∀ m ∈ d.2, Text.sameLetters m.1 name = false)
    (hms : ∀ m ∈ ms, Text.sameLetters m.1 name = false) :
    findTold (C₁ ++ (c, ms ++ (n, tests) :: ms') :: C₂) className name = some (n, tests) := by
  refine List.find?_eq_some_iff_append.mpr ⟨hmethod,
    (C₁.filter fun c => Text.sameLetters c.1 className).flatMap Prod.snd ++ ms,
    ms' ++ (C₂.filter fun c => Text.sameLetters c.1 className).flatMap Prod.snd, ?_, fun m hm => ?_⟩
  · rw [List.filter_append, List.filter_cons, if_pos hclass, List.flatMap_append, List.flatMap_cons]
    simp
  · obtain hm | hm := List.mem_append.mp hm
    · obtain ⟨d, hd, hm⟩ := List.mem_flatMap.mp hm
      obtain ⟨hd, hdclass⟩ := List.mem_filter.mp hd
      rw [hbefore d hd hdclass m hm]
      rfl
    · rw [hms m hm]
      rfl

/-! ## §3 Writing the references -/

variable {target : Target} {tests : List BackReference}

/-- The token before which new groups for a method are written: the one after the last anchor, or the
first word of the method. -/
def noteAt (l : TokenSequence) (m : Source.Method) : Nat :=
  match (anchors m).getLast? with
  | some g => g.next
  | none => l.tokens.findIdx fun t => m.headStart ≤ t.span.start

theorem inject_eq (hl : tokenize source = .ok l) (hname : target.method = some name)
    (hfind : findMethod (Imports.ofTokens l) (l.classes source) target.className name = some method) :
    inject source target tests = applyEdit source
      ((missing (testsNamed (Imports.ofTokens l) method.attributes) tests).map fun r =>
        Edit.addLine source ((anchors method).map AttributeGroup.span) method.headStart
          (render r)) := by
  rw [← testsNamed_filter]
  unfold inject
  simp only [hname, hl, Except.mapError, bind, Except.bind, hfind]
  rfl

/-- What is told of the classes of a file. -/
def contents (classes : List Class) : Outline :=
  classes.map fun c => (c.name, c.methods.map fun m => (m.name, m.testedBy))

theorem exists_classes (hl : tokenize source = .ok l) : ∃ classes, readClasses source = .ok classes ∧
    contents classes = outline (Imports.ofTokens l) (l.classes source) := by
  refine ⟨_, by rw [readClasses, hl]; rfl, ?_⟩
  rw [contents, outline, List.map_map]
  refine List.map_congr_left fun c _ => ?_
  rw [Function.comp_apply, List.map_map]
  rfl

/-- Groups that name tests are written at the berth of a method. -/
theorem outline_noted {C₁ C₂ : List DeclaredClass} {c : DeclaredClass} {ms ms' : List Source.Method}
    {P Q : List Piece} {before after : Text} {A B : List AttributeGroup} (hl : tokenize source = .ok l)
    (hsetting : Setting source l (·.has testedByName) C₁ C₂ c ms ms' method k P Q before after A B)
    (himports : Imports.ofTokens l = imports) (huncrossed : Uncrossed l k) (hne : rs ≠ [])
    (hrs : ∀ r ∈ rs, ReadsBack imports r)
    (htag : ∀ r ∈ rs, "<?".toList <:+: render r → "<?".toList <:+: source) :
    ∃ out l', applyEdit source (rs.map fun r =>
        Edit.addLine source ((anchors method).map AttributeGroup.span) method.headStart (render r)) =
        .ok out ∧ tokenize out = .ok l' ∧ Imports.ofTokens l' = imports ∧
      outline imports (l'.classes out) = outline imports C₁ ++ (fullName imports c,
        ms.map (tell imports) ++ (method.name, testsNamed imports method.attributes ++ rs) ::
          ms'.map (tell imports)) :: outline imports C₂ := by
  obtain ⟨is, htexts, hquiet, hreads⟩ := exists_inscriptions hrs
  have hmem : ∀ I ∈ is, ∃ r ∈ rs, render r = I.text := fun I hI =>
    List.mem_map.mp (htexts ▸ List.mem_map_of_mem hI)
  obtain ⟨l', gs, hl', hwritten, -, hgs, himports'⟩ := hsetting.exists_written hl
    (fun he => hne (List.map_eq_nil_iff.mp (by rw [← htexts, he]; rfl))) hreads
    fun I hI h => by
      obtain ⟨r, hr, he⟩ := hmem I hI
      exact htag r hr (he ▸ h)
  have hedits : (rs.map fun r =>
      Edit.addLine source ((anchors method).map AttributeGroup.span) method.headStart (render r)) =
      is.map fun I => Edit.addLine source ((anchors method).map AttributeGroup.span) method.headStart I.text := by
    have h := congrArg (List.map (Edit.addLine source ((anchors method).map AttributeGroup.span)
      method.headStart)) htexts
    rw [List.map_map, List.map_map] at h
    exact h.symm
  refine ⟨_, l', ?_, hl', (himports' huncrossed hquiet).1.trans himports, ?_⟩
  · rw [hedits]
    exact hsetting.apply_eq is
  · rw [outline_written hwritten (testsNamed_of_has hsetting.rest), testsNamed_of_forall₂ hgs]

/-- The references that are not there are written, and what is told of the classes is as it was but for
them. -/
theorem exists_out (hl : tokenize source = .ok l)
    (hfind : findMethod (Imports.ofTokens l) (l.classes source) className name = some method)
    (hread : ∀ r ∈ tests, ReadsBack (Imports.ofTokens l) r)
    (htag : ∀ r ∈ tests, "<?".toList <:+: render r → "<?".toList <:+: source)
    (huncrossed : Uncrossed l (noteAt l method)) :
    ∃ out l', applyEdit source
        ((missing (testsNamed (Imports.ofTokens l) method.attributes) tests).map fun r =>
          Edit.addLine source ((anchors method).map AttributeGroup.span) method.headStart (render r)) =
        .ok out ∧ tokenize out = .ok l' ∧ Imports.ofTokens l' = Imports.ofTokens l ∧
      Noted className name tests (outline (Imports.ofTokens l) (l.classes source))
        (outline (Imports.ofTokens l) (l'.classes out)) := by
  generalize himports : Imports.ofTokens l = imports at *
  generalize hmissing : missing (testsNamed imports method.attributes) tests = rs
  have hmem : ∀ r ∈ rs, r ∈ tests := fun r hr => mem_of_mem_missing (hmissing ▸ hr)
  obtain ⟨C₁, c, C₂, ms, ms', hclasses, hmethods, hclass, hmethod, hbefore, hms⟩ := findMethod_split hfind
  have hold : outline imports (l.classes source) = outline imports C₁ ++ (fullName imports c,
      ms.map (tell imports) ++ (method.name, testsNamed imports method.attributes) ::
        ms'.map (tell imports)) :: outline imports C₂ := by
    rw [hclasses, outline_append, outline_cons imports C₂ hmethods]
  have hnoted : Noted className name tests (outline imports (l.classes source))
      (outline imports C₁ ++ (fullName imports c, ms.map (tell imports) ++
        (method.name, testsNamed imports method.attributes ++ rs) :: ms'.map (tell imports)) ::
          outline imports C₂) := by
    rw [hold, ← hmissing, missing_eq]
    refine .intro hclass hmethod (fun d hd hdclass m hm => ?_) fun m hm => ?_
    · obtain ⟨d', hd', rfl⟩ := List.mem_map.mp hd
      obtain ⟨m', hm', rfl⟩ := List.mem_map.mp hm
      exact hbefore _ hd' hdclass m' hm'
    · obtain ⟨m', hm', rfl⟩ := List.mem_map.mp hm
      exact hms m' hm'
  by_cases hne : rs = []
  · subst hne
    refine ⟨source, l, applyEdit_nil source, hl, himports, ?_⟩
    rw [List.append_nil, ← hold] at hnoted
    exact hnoted
  · obtain ⟨k, P, Q, before, after, A, B, hsetting⟩ :=
      exists_setting (·.has testedByName) hl hclasses hmethods
    rw [show noteAt l method = k from (hsetting.point.eq_pointOf hl).symm] at huncrossed
    obtain ⟨out, l', hout, hl', himports', houtline⟩ := outline_noted hl hsetting himports huncrossed hne
      (fun d hd => hread d (hmem d hd)) (fun d hd => htag d (hmem d hd))
    exact ⟨out, l', hout, hl', himports', houtline ▸ hnoted⟩

/-- Back-references are written to the first method that a target names: those that are new are read
back in order after the ones that were there, nothing else that is read changes, and writing them again
changes nothing. No group that is written may hold a tag unless the source does, and nothing that
imports are collected from may reach across the place where groups are written. -/
theorem inject_noted (hl : tokenize source = .ok l) (hname : target.method = some name)
    (hfind : findMethod (Imports.ofTokens l) (l.classes source) target.className name = some method)
    (hread : ∀ r ∈ tests, ReadsBack (Imports.ofTokens l) r)
    (htag : ∀ r ∈ tests, Text.contains "<?" (render r) = true → Text.contains "<?" source = true)
    (huncrossed : Uncrossed l (noteAt l method)) :
    ∃ out classes classes', inject source target tests = .ok out ∧
      readClasses source = .ok classes ∧ readClasses out = .ok classes' ∧
      Noted target.className name tests (contents classes) (contents classes') ∧
      inject out target tests = .ok out := by
  simp only [contains_iff] at htag
  obtain ⟨out, l', hout, hl', himports, hnoted⟩ := exists_out hl hfind hread htag huncrossed
  obtain ⟨classes, hclasses, hcontents⟩ := exists_classes hl
  obtain ⟨classes', hclasses', hcontents'⟩ := exists_classes hl'
  refine ⟨out, classes, classes', (inject_eq hl hname hfind).trans hout, hclasses, hclasses', ?_, ?_⟩
  · rw [hcontents, hcontents', himports]
    exact hnoted
  · -- the method is found again with all the tests it has now
    obtain ⟨method', hfind', hmissing⟩ : ∃ method', findMethod (Imports.ofTokens l') (l'.classes out)
        target.className name = some method' ∧
        missing (testsNamed (Imports.ofTokens l') method'.attributes) tests = [] := by
      have htold := tell_findMethod (Imports.ofTokens l') (l'.classes out) target.className name
      rw [himports] at htold ⊢
      generalize outline (Imports.ofTokens l) (l.classes source) = o at hnoted
      generalize outline (Imports.ofTokens l) (l'.classes out) = o' at hnoted htold
      obtain ⟨hclass, hmethod, hbefore, hms⟩ := hnoted
      rw [findTold_split hclass hmethod hbefore hms] at htold
      obtain ⟨method', hfind', htell⟩ := Option.map_eq_some_iff.mp htold
      refine ⟨method', hfind', ?_⟩
      rw [show testsNamed (Imports.ofTokens l) method'.attributes = _ from congrArg Prod.snd htell,
        ← missing_eq]
      exact missing_missing _ _
    rw [inject_eq hl' hname hfind', hmissing]
    exact applyEdit_nil out

/-- A method that names a test and one that names none. -/
def notedSource : Text :=
  "<?php\nnamespace App;\nclass A \x7b\n    #[TestedBy('T', 'a')]\n    public function f() \x7b\x7d\n" ++
    "    public function g() \x7b\x7d\n\x7d\n"

/-- A test is written that is new, and one that is there already is not. -/
theorem inject_noted_sample : ∃ out classes classes',
    inject notedSource ⟨"app\\a", some "F"⟩ [⟨"T", some "b"⟩, ⟨"T", some "a"⟩] = .ok out ∧
      readClasses notedSource = .ok classes ∧ readClasses out = .ok classes' ∧
      Noted "app\\a" "F" [⟨"T", some "b"⟩, ⟨"T", some "a"⟩] (contents classes) (contents classes') ∧
      inject out ⟨"app\\a", some "F"⟩ [⟨"T", some "b"⟩, ⟨"T", some "a"⟩] = .ok out := by
  have h : ((tokenize notedSource).toOption.any fun l =>
      ((findMethod (Imports.ofTokens l) (l.classes notedSource) "app\\a" "F").any fun m =>
        neverCrosses l (noteAt l m) 40 {} 0) &&
        ([⟨"T", some "b"⟩, ⟨"T", some "a"⟩] : List BackReference).all fun r =>
          ReadsBack (Imports.ofTokens l) r) = true := by decide +kernel
  obtain ⟨l, hl, h⟩ := (Option.any_eq_true _ _).mp h
  obtain ⟨hm, hread⟩ := Bool.and_eq_true_iff.mp h
  obtain ⟨m, hfind, hnever⟩ := (Option.any_eq_true _ _).mp hm
  exact inject_noted (eq_ok_of_toOption hl) rfl hfind (fun r hr => of_decide_eq_true (List.all_eq_true.mp hread r hr))
    (by decide +kernel) (uncrossed_of_neverCrosses hnever)

/-- What is told of the classes of a source, if it can be read. -/
def contentsOf (source : Text) : Option Outline := (readClasses source).toOption.map contents

/-- Writing a back-reference that is read back to a method makes a source the text `out`. -/
def Writes (source : Text) (target : Target) (r : BackReference) (out : Text) : Prop :=
  (inject source target [r]).toOption = some out ∧
    ((tokenize source).toOption.any fun l => ReadsBack (Imports.ofTokens l) r) = true

instance (source : Text) (target : Target) (r : BackReference) (out : Text) :
    Decidable (Writes source target r out) := inferInstanceAs (Decidable (_ ∧ _))

/-- A class after a constant called `USE`, with this group before its first method. -/
def importingSource (group : Text) : Text :=
  "<?php\nnamespace App;\n#[Attr(Foo::USE)]\nclass A \x7b\n" ++ group ++
    "    function f() \x7b return 1; \x7d\n" ++
    "    #[TestedBy(TestedBy::class, 'm')]\n    function g() \x7b\x7d\n\x7d\n"

/-- A source without a tag, with this group before its method. -/
def taglessSource (group : Text) : Text := "class A \x7b " ++ group ++ "function f() \x7b\x7d \x7d\n"

/-- What is required of the groups and of the place is needed. -/
theorem inject_misread :
    -- the constant `USE` is taken for an import that goes on to the next semicolon, and the name that is
    -- written becomes one of its classes, so that the other method names another test
    (Writes (importingSource []) ⟨"App\\A", some "f"⟩ ⟨"T", some "t"⟩
        (importingSource "    #[TestedBy('T', 't')]\n") ∧
      contentsOf (importingSource []) =
        some ([("App\\A", [("f", []), ("g", [⟨"App\\TestedBy", some "m"⟩])])] : Outline) ∧
      contentsOf (importingSource "    #[TestedBy('T', 't')]\n") =
        some ([("App\\A", [("f", [⟨"T", some "t"⟩]), ("g", [⟨"TestedBy", some "m"⟩])])] : Outline)) ∧
    -- a tag in a group makes inline markup of what was code
    (Writes (taglessSource []) ⟨"A", some "f"⟩ ⟨"T", some "<?"⟩ (taglessSource "#[TestedBy('T', '<?')] ") ∧
      contentsOf (taglessSource []) = some ([("A", [("f", [])])] : Outline) ∧
      contentsOf (taglessSource "#[TestedBy('T', '<?')] ") = none) := by
  refine ⟨⟨?_, ?_, ?_⟩, ?_, ?_, ?_⟩ <;> decide +kernel

end Production

end Crosslink
