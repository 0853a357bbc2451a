import Mathlib.Data.List.DropRight
import Crosslink.Proofs.Places
import Crosslink.Proofs.Sites

/-!
# The path of a test

The name of a test is made of the titles of the groups around it. Which groups these are is told by
brackets: a group is around a token that stands between the parentheses of its call. On the walk
through a file, a group is kept until a token behind its closing parenthesis is reached, so that the
groups which are kept at a call are those around it, the outer ones first.

* §1 `encloses`, the groups around a token.
* §2 `testsPopping_eq`, a stack of groups from which only the innermost ones are taken.
* §3 `NamedBy`, the name of a test.

## Main statements

* `readTests_named`: the tests of a source, where they stand and what they are called.
-/

namespace Crosslink.FluentChain

open Source Source.TokenSequence

variable {l : TokenSequence} {source : Text} {imports : Imports} {i j k m c c' : Nat}
  {keyword : Keyword} {groups : List (Text × Nat)}

/-! ## §1 Groups around a token -/

/-- True when `describe` is called at the token `j` and its parentheses enclose the token `i`. -/
def encloses (l : TokenSequence) (j i : Nat) : Bool :=
  match siteAt l j with
  | some (.describe, close) => j + 1 < i && i < close
  | _ => false

/-- The calls of `describe` whose parentheses enclose a token, in the order of the source. -/
def enclosing (l : TokenSequence) (i : Nat) : List Nat := (List.range i).filter (encloses l · i)

theorem encloses_iff : encloses l j i = true ↔
    ∃ close, siteAt l j = some (.describe, close) ∧ j + 1 < i ∧ i < close := by
  unfold encloses
  split
  · rename_i close hsite
    simp [hsite]
  · rename_i hnone
    simp only [Bool.false_eq_true, false_iff]
    rintro ⟨close, hsite, -⟩
    exact hnone close hsite

/-- What a keyword is called at is neither the parenthesis after another keyword nor the one that
closes its call. -/
theorem ne_of_sites (hl : l.Nested) (hj : siteAt l j = some (keyword, c)) {keyword' : Keyword}
    (hi : siteAt l i = some (keyword', c')) : i ≠ j + 1 ∧ i ≠ c ∧ i + 1 ≠ c := by
  obtain ⟨-, hopen, hpartner⟩ := siteAt_eq_some hj
  obtain ⟨-, hopen', -⟩ := siteAt_eq_some hi
  obtain ⟨t, ht, hcall⟩ := Option.bind_eq_some_iff.mp hi
  have hname : l.kindAt i = some .name := by
    rw [kindAt, ht, Option.map_some, kind_of_keyword (keywordCall_eq_some.mp hcall).1]
  have hclose := of_decide_eq_true (isKind_close hl hopen hpartner)
  refine ⟨?_, ?_, ?_⟩
  · rintro rfl
    rw [siteAt_succ hj] at hi
    cases hi
  · rintro rfl
    rw [hname] at hclose
    cases hclose
  · rintro rfl
    rw [of_decide_eq_true hopen'] at hclose
    cases hclose

/-- A call inside the parentheses of another one is closed there. -/
theorem close_lt_close (hl : l.Nested) (hj : siteAt l j = some (keyword, c)) {keyword' : Keyword}
    (hi : siteAt l i = some (keyword', c')) (hji : j < i) (hic : i ≤ c) :
    j + 1 < i ∧ i < c ∧ c' < c := by
  obtain ⟨hne, hne', hne''⟩ := ne_of_sites hl hj hi
  obtain ⟨-, -, hpartner⟩ := siteAt_eq_some hj
  obtain ⟨-, -, hpartner'⟩ := siteAt_eq_some hi
  obtain ⟨t, ht, htc⟩ := partnerAt_eq_some.mp hpartner
  obtain ⟨u, hu, huc⟩ := partnerAt_eq_some.mp hpartner'
  have hinside := hl.inside (j + 1) t c ht htc (by omega) (i + 1) u c' (by omega) (by omega) hu huc
  exact ⟨by omega, by omega, hinside.2⟩

/-- Of two groups around a token the one that comes first is around the other, too. -/
theorem enclosing_nested (hl : l.Nested) (i : Nat) : (enclosing l i).Pairwise fun j k =>
    encloses l j k = true ∧ ∀ m, encloses l k m = true → encloses l j m = true := by
  have hlt : (enclosing l i).Pairwise (· < ·) := List.Pairwise.filter _ List.pairwise_lt_range
  refine hlt.imp_of_mem fun {j k} hj hk hjk => ?_
  obtain ⟨c, hj, hji, hic⟩ := encloses_iff.mp (List.mem_filter.mp hj).2
  obtain ⟨c', hk, hki, hic'⟩ := encloses_iff.mp (List.mem_filter.mp hk).2
  obtain ⟨hjk', hkc, hclose⟩ := close_lt_close hl hj hk hjk (by omega)
  refine ⟨encloses_iff.mpr ⟨c, hj, hjk', hkc⟩, fun m hm => ?_⟩
  obtain ⟨d, hd, hkm, hmd⟩ := encloses_iff.mp hm
  obtain ⟨-, rfl⟩ := Prod.mk.inj (Option.some.inj (hd.symm.trans hk))
  exact encloses_iff.mpr ⟨c, hj, by omega, by omega⟩

/-! ## §2 The groups as a stack -/

/-- The tests from a token on, as `testsFrom` collects them, but with the groups as a stack: of those
that have ended, only the ones at its end are taken off before a token. -/
def testsPopping (l : TokenSequence) (source : Text) (imports : Imports)
    (groups : List (Text × Nat)) (i : Nat) : List Test :=
  match _h : l.tokens[i]? with
  | none => []
  | some t =>
    let groups := groups.rdropWhile fun g => g.2 < i
    match keywordCall l i t with
    | none => testsPopping l source imports groups (i + 1)
    | some (.describe, close) =>
      let title := titleOf (l.arguments source (i + 1))
      testsPopping l source imports (groups ++ [(title, close)]) (i + 2)
    | some (keyword, close) =>
      testAt l source imports (groups.map Prod.fst) keyword i close t
        :: testsPopping l source imports groups (i + 2)
termination_by l.tokens.size - i
decreasing_by
  all_goals
    have hi : i < l.tokens.size := (Array.getElem?_eq_some_iff.mp ‹_›).1
    omega

/-- The groups on a stack were opened before the token `i`, and later ones end earlier. -/
structure Stacked (l : TokenSequence) (i : Nat) (groups : List (Text × Nat)) : Prop where
  opened : ∀ g ∈ groups, ∃ j, siteAt l j = some (.describe, g.2) ∧ j < i
  order : groups.Pairwise fun g g' => g'.2 < g.2

theorem Stacked.nil : Stacked l i [] := ⟨by simp, .nil⟩

theorem Stacked.mono (h : Stacked l i groups) (hij : i ≤ j) : Stacked l j groups where
  opened g hg := by
    obtain ⟨m, hm, hmi⟩ := h.opened g hg
    exact ⟨m, hm, by omega⟩
  order := h.order

theorem Stacked.filter (h : Stacked l i groups) (p : Text × Nat → Bool) :
    Stacked l i (groups.filter p) where
  opened g hg := h.opened g (List.mem_filter.mp hg).1
  order := h.order.filter p

/-- Of the groups on a stack those that have ended stand at its end. -/
theorem Stacked.rdropWhile_eq (h : Stacked l i groups) :
    groups.rdropWhile (fun g => g.2 < i) = groups.filter (i ≤ ·.2) := by
  have horder := h.order
  clear h
  induction groups using List.reverseRecOn with
  | nil => rfl
  | append_singleton gs g ih =>
    obtain ⟨hgs, -, hlast⟩ := List.pairwise_append.mp horder
    by_cases hg : g.2 < i
    · have hout : [g].filter (i ≤ ·.2) = [] := by simpa using hg
      rw [List.rdropWhile_concat_pos _ _ _ (by simpa using hg), ih hgs, List.filter_append, hout,
        List.append_nil]
    · -- all others end later
      rw [List.rdropWhile_concat_neg _ _ _ (by simpa using hg), List.filter_eq_self.mpr]
      intro g' hg'
      obtain hg' | hg' := List.mem_append.mp hg'
      · have := hlast g' hg' g (by simp)
        simp only [decide_eq_true_eq]
        omega
      · obtain rfl := List.mem_singleton.mp hg'
        simpa using hg

/-- A group that is opened ends before those that have not ended. -/
theorem Stacked.push (hl : l.Nested) (h : Stacked l i groups) (hkept : ∀ g ∈ groups, i ≤ g.2)
    (hi : siteAt l i = some (.describe, c)) (title : Text) :
    Stacked l (i + 1) (groups ++ [(title, c)]) where
  opened g hg := by
    obtain hg | hg := List.mem_append.mp hg
    · exact (h.mono (Nat.le_succ i)).opened g hg
    · obtain rfl := List.mem_singleton.mp hg
      exact ⟨i, hi, Nat.lt_succ_self i⟩
  order := by
    refine List.pairwise_append.mpr ⟨h.order, List.pairwise_singleton _ _, fun g hg g' hg' => ?_⟩
    obtain rfl := List.mem_singleton.mp hg'
    obtain ⟨j, hj, hji⟩ := h.opened g hg
    exact (close_lt_close hl hj hi hji (hkept g hg)).2.2

/-- The walk finds the same tests with the groups on a stack. -/
theorem testsPopping_eq (hl : l.Nested) (h : Stacked l i groups) :
    testsPopping l source imports groups i = testsFrom l source imports groups i := by
  induction hm : l.tokens.size - i using Nat.strongRecOn generalizing groups i with
  | ind m ih =>
    subst hm
    have hkept : ∀ g ∈ groups.filter (i ≤ ·.2), i ≤ g.2 := fun g hg => by
      simpa using (List.mem_filter.mp hg).2
    have hfilter := h.filter (i ≤ ·.2)
    rw [testsPopping, testsFrom]
    dsimp only
    rw [h.rdropWhile_eq]
    cases ht : l.tokens[i]? with
    | none => rfl
    | some t =>
      have hi := (Array.getElem?_eq_some_iff.mp ht).1
      have hsite := siteAt_of_token ht
      dsimp only
      cases hcall : keywordCall l i t with
      | none => exact ih _ (by omega) (i := i + 1) (hfilter.mono (by omega)) rfl
      | some r =>
        obtain ⟨keyword, close⟩ := r
        rw [hcall] at hsite
        cases keyword with
        | describe =>
          exact ih _ (by omega) (i := i + 2) ((hfilter.push hl hkept hsite _).mono (by omega)) rfl
        | test | it =>
          exact congrArg _ (ih _ (by omega) (i := i + 2) (hfilter.mono (by omega)) rfl)

/-! ## §3 Names -/

/-- The title of what is called at a token. -/
def titleAt (l : TokenSequence) (source : Text) (i : Nat) : Text := titleOf (l.arguments source (i + 1))

/-- The title of the test that is called at a token, with the word that `it` stands for. -/
def ownTitle (l : TokenSequence) (source : Text) (i : Nat) : Text :=
  match siteAt l i with
  | some (.it, _) => "it " ++ titleAt l source i
  | _ => titleAt l source i

/-- The titles of the groups around a token, outermost first, and its own. -/
def titlePath (l : TokenSequence) (source : Text) (i : Nat) : List Text :=
  (enclosing l i).map (titleAt l source) ++ [ownTitle l source i]

/-- The tokens at which a test is called, in the order of the source. -/
def testSites (l : TokenSequence) : List Nat :=
  (List.range l.tokens.size).filter fun i => (siteAt l i).any fun s => s.1 ≠ .describe

/-- A test case that begins at a token and has the name and the identifier of a test called there. -/
structure NamedBy (l : TokenSequence) (source : Text) (i : Nat) (c : TestCase) : Prop where
  start : l.tokens[i]?.map (·.span.start) = some c.span.start
  name : c.name = Text.join " > " (titlePath l source i)
  identifier : c.identifier = Text.join "__" ((titlePath l source i).map slug)

/-- The names and identifiers of all test cases, from the paths of the tests. -/
theorem names_of_namedBy {sites : List Nat} {cases : List TestCase}
    (h : List.Forall₂ (NamedBy l source) sites cases) :
    cases.map TestCase.name = (sites.map (titlePath l source)).map (Text.join " > ") ∧
      cases.map TestCase.identifier =
        (sites.map (titlePath l source)).map fun titles => Text.join "__" (titles.map slug) := by
  induction h with
  | nil => exact ⟨rfl, rfl⟩
  | cons hc _ ih =>
    simp only [List.map_cons, hc.name, hc.identifier, ih.1, ih.2, and_self]

/-- The groups that are kept on the way to a call are those around it. -/
theorem titles_kept (hl : l.Nested) (hi : siteAt l i = some (keyword, c)) :
    ((groupsIn l source 0 i).filter (i ≤ ·.2)).map Prod.fst =
      (enclosing l i).map (titleAt l source) := by
  rw [groupsIn, Nat.sub_zero, ← List.range_eq_range', enclosing, List.filter_filterMap,
    List.map_filterMap, ← List.filterMap_eq_map, List.filterMap_filter]
  refine List.filterMap_congr fun j hj => ?_
  have hji := List.mem_range.mp hj
  unfold groupAt encloses
  cases hsite : siteAt l j with
  | none => rfl
  | some r =>
    obtain ⟨keyword', close⟩ := r
    cases keyword' with
    | test | it => rfl
    | describe =>
      have hiff : i ≤ close ↔ j + 1 < i ∧ i < close :=
        ⟨fun h => ⟨(close_lt_close hl hsite hi hji h).1, (close_lt_close hl hsite hi hji h).2.1⟩,
          fun h => by omega⟩
      by_cases hkept : i ≤ close
      · simp [Option.filter, hkept, hiff.mp hkept, titleAt]
      · have := mt hiff.mpr hkept
        simp [Option.filter, hkept, this]

theorem namedBy_testAt (hl : l.Nested) {t : Token} (ht : l.tokens[i]? = some t)
    (hi : siteAt l i = some (keyword, c)) : NamedBy l source i (testAt l source imports
      (((groupsIn l source 0 i).filter (i ≤ ·.2)).map Prod.fst) keyword i c t).case := by
  have hown : (if keyword = .it then "it " ++ titleAt l source i else titleAt l source i) =
      ownTitle l source i := by
    rw [ownTitle, hi]
    cases keyword <;> rfl
  have hpath : ((groupsIn l source 0 i).filter (i ≤ ·.2)).map Prod.fst ++
      [if keyword = .it then "it " ++ titleAt l source i else titleAt l source i] =
      titlePath l source i := by rw [titles_kept hl hi, hown, titlePath]
  exact ⟨by rw [ht]; rfl, congrArg (Text.join " > ") hpath,
    congrArg (fun titles : List Text => Text.join "__" (titles.map slug)) hpath⟩

/-- The sites of the tests of a file are the tokens at which a test is called. -/
theorem located_testSites : (located l source imports).map Prod.fst = testSites l := by
  unfold located testSites
  rw [List.map_filterMap, ← List.filterMap_eq_filter]
  refine List.filterMap_congr fun i _ => ?_
  unfold testIn
  cases ht : l.tokens[i]? with
  | none => simp [Option.guard, siteAt, ht]
  | some t =>
    simp only [Option.guard, siteAt_of_token ht, Option.bind_some]
    cases keywordCall l i t with
    | none => rfl
    | some r =>
      obtain ⟨keyword, close⟩ := r
      cases keyword <;> rfl

/-- There is one test for each call, in the order of the calls, and its name tells which groups are
around the call, the outermost first. -/
theorem readTests_named (h : tokenize source = .ok l) :
    ∃ cases, readTests source = .ok cases ∧
      cases = (testsPopping l source (Imports.ofTokens l) [] 0).map Test.case ∧
      List.Forall₂ (NamedBy l source) (testSites l) cases ∧
      cases.Pairwise (·.span.start < ·.span.start) ∧
      ∀ i, (enclosing l i).Pairwise fun j k =>
        encloses l j k = true ∧ ∀ m, encloses l k m = true → encloses l j m = true := by
  have hn := nested_of_tokenize h
  have hread : readTests source =
      .ok ((testsFrom l source (Imports.ofTokens l) [] 0).map Test.case) := by
    rw [readTests, File.read, h]
    rfl
  have hnamed : ∀ p ∈ located l source (Imports.ofTokens l), NamedBy l source p.1 p.2.case := by
    intro p hp
    obtain ⟨keyword, close, t, hsite, ht, hp⟩ := siteAt_of_mem_located hp
    rw [hp]
    exact namedBy_testAt hn ht hsite
  refine ⟨_, hread, by rw [testsPopping_eq hn .nil], ?_, ?_, enclosing_nested hn⟩
  · have hsites : (located l source (Imports.ofTokens l)).map Prod.fst = testSites l := located_testSites
    rw [tests_eq_located, ← hsites, List.map_map, List.forall₂_map_left_iff, List.forall₂_map_right_iff, List.forall₂_same]
    exact hnamed
  · rw [tests_eq_located, List.map_map, List.pairwise_map]
    refine (located_sorted l source _).imp_of_mem fun {p q} hp hq hpq => ?_
    obtain ⟨t, ht, hstart⟩ := Option.map_eq_some_iff.mp (hnamed p hp).start
    obtain ⟨u, hu, hstart'⟩ := Option.map_eq_some_iff.mp (hnamed q hq).start
    exact hstart ▸ hstart' ▸ start_lt h ht hu hpq

/-- A group with a group and a test in it, and a test after it. -/
def sampleGroups : Text := "describe('a',fn()=>[describe('b',fn()=>it('c')),test('d')]);test('e');"

theorem readTests_named_groups : ∃ cases, readTests sampleGroups = .ok cases ∧
    cases.map TestCase.name = ["a > b > it c".toList, "a > d".toList, "e".toList] ∧
    cases.map TestCase.identifier = ["a__b__it_c".toList, "a__d".toList, "e".toList] := by
  have h : (tokenize sampleGroups).toOption.any (fun l =>
      (testSites l).map (titlePath l sampleGroups) =
        [["a".toList, "b".toList, "it c".toList], ["a".toList, "d".toList], ["e".toList]]) = true := by
    decide +kernel
  cases hl : tokenize sampleGroups with
  | error e =>
    rw [hl] at h
    cases h
  | ok l =>
    rw [hl] at h
    obtain ⟨cases, hread, -, hnamed, -⟩ := readTests_named hl
    obtain ⟨hname, hidentifier⟩ := names_of_namedBy hnamed
    refine ⟨cases, hread, ?_, ?_⟩
    · rw [hname, of_decide_eq_true h]
      rfl
    · rw [hidentifier, of_decide_eq_true h]
      decide +kernel

end Crosslink.FluentChain
