import Crosslink.Proofs.Canonical
import Crosslink.Proofs.Confining
import Crosslink.Proofs.Tallies

/-!
# Tests recognized by their identifiers

After an edit the tests of a file start elsewhere, and a case that was recorded before is found again by its
name and its identifier. The identifier of a test is told from those of all others, whatever stands before it,
since none is the end of another behind a separator: that of a test with a chain holds no separator, and that
of a method just the one between the class and the method.

* §1 `Trails`, the identifiers that could be mistaken for each other, and `findAgain_of_apart`.
* §2 `FluentChain.locate_of_named`, tests with chains.
* §3 `AttributeList.locate_of_named`, tests that are methods of classes.
-/

namespace Crosslink

/-! ## §1 Identifiers that are told apart -/

/-- The first identifier stands at the end of the second, behind a character of a separator. -/
def Trails (a b : Text) : Prop := ∃ s, (s = '\\' ∨ s = ':') ∧ (s :: a) <:+ b

variable {a b q : Text} {cases : List TestCase} {c r : TestCase} {i : Nat}

theorem eq_or_trails_of_isEndOf (h : TestCase.isEndOf a q = true) : q = a ∨ Trails a q := by
  rw [TestCase.isEndOf, Bool.or_eq_true, Bool.or_eq_true, beq_iff_eq, List.isSuffixOf_iff_suffix,
    List.isSuffixOf_iff_suffix] at h
  obtain (h | h) | h := h
  · exact .inl h
  · exact .inr ⟨'\\', .inl rfl, h⟩
  · exact .inr ⟨':', .inr rfl, (List.suffix_cons _ _).trans h⟩

/-- A qualified identifier ends with one identifier at most, of those that are told apart. -/
theorem eq_of_isEndOf (ha : TestCase.isEndOf a q = true) (hb : TestCase.isEndOf b q = true)
    (hab : ¬ Trails a b) (hba : ¬ Trails b a) : a = b := by
  obtain rfl | ⟨s, hs, ha⟩ := eq_or_trails_of_isEndOf ha
  · obtain h | h := eq_or_trails_of_isEndOf hb
    · exact h
    · exact absurd h hba
  · obtain rfl | ⟨s', hs', hb⟩ := eq_or_trails_of_isEndOf hb
    · exact absurd ⟨s, hs, ha⟩ hab
    · obtain h | h := List.suffix_or_suffix_of_suffix ha hb
      · obtain h | h := List.suffix_cons_iff.mp h
        · exact (List.cons.inj h).2
        · exact absurd ⟨s, hs, h⟩ hab
      · obtain h | h := List.suffix_cons_iff.mp h
        · exact (List.cons.inj h).2.symm
        · exact absurd ⟨s', hs', h⟩ hba

/-- A case with the name of a test and an identifier that ends with its own is found where that test stands,
wherever it was recorded, if no two tests have one identifier and all are told apart. -/
theorem findAgain_of_apart (hi : cases[i]? = some c) (hname : r.name = c.name)
    (hend : TestCase.isEndOf c.identifier r.identifier = true)
    (hnodup : (cases.map TestCase.identifier).Nodup)
    (happart : ∀ a ∈ cases, ∀ b ∈ cases, ¬ Trails a.identifier b.identifier) :
    TestCase.findAgain? cases r = some i := by
  obtain ⟨hlt, hget⟩ := List.getElem?_eq_some_iff.mp hi
  have hmem := List.mem_of_getElem? hi
  -- only one test has an identifier that ends the recorded one
  have honly : ∀ j, (hj : j < cases.length) →
      TestCase.isEndOf cases[j].identifier r.identifier = true → j = i := fun j hj hagrees => by
    have hsame := eq_of_isEndOf hagrees hend (happart _ (List.getElem_mem hj) _ hmem)
      (happart _ hmem _ (List.getElem_mem hj))
    refine (List.getElem?_inj (by simpa using hj) hnodup).mp ?_
    rw [List.getElem?_map, List.getElem?_map, List.getElem?_eq_getElem hj, hi, Option.map_some, Option.map_some,
      hsame]
  have hsecond : cases.findIdx? (fun d => d.name == r.name && TestCase.isEndOf d.identifier r.identifier) =
      some i := by
    refine List.findIdx?_eq_some_iff_getElem.mpr ⟨hlt, by simp [hget, hname, hend], fun j hj hagrees => ?_⟩
    have := honly j (by omega) (Bool.and_eq_true_iff.mp hagrees).2
    omega
  rw [TestCase.findAgain?]
  cases hfirst : cases.findIdx? fun d => (d.name == r.name && TestCase.isEndOf d.identifier r.identifier) &&
      d.span.start == r.span.start with
  | none =>
    rw [hsecond]
    rfl
  | some j =>
    obtain ⟨hj, hagrees, -⟩ := List.findIdx?_eq_some_iff_getElem.mp hfirst
    simp only [Bool.and_eq_true] at hagrees
    rw [honly j hj hagrees.1.2]
    rfl

/-! ## §2 Chains -/

theorem mem_join {sep : Text} {ts : List Text} {d : Char} (h : d ∈ Text.join sep ts) :
    d ∈ sep ∨ ∃ t ∈ ts, d ∈ t := by
  induction ts with
  | nil => simp [Text.join] at h
  | cons t ts ih =>
    cases ts with
    | nil => exact .inr ⟨t, by simp, by simpa [Text.join] using h⟩
    | cons u us =>
      have hjoin : Text.join sep (t :: u :: us) = t ++ (sep ++ Text.join sep (u :: us)) := by simp [Text.join]
      rw [hjoin, List.mem_append, List.mem_append] at h
      obtain h | h | h := h
      · exact .inr ⟨t, by simp, h⟩
      · exact .inl h
      · obtain h | ⟨v, hv, h⟩ := ih h
        · exact .inl h
        · exact .inr ⟨v, List.mem_cons_of_mem _ hv, h⟩

namespace FluentChain

open Source

variable {source : Text} {file : File} {t : Test}

/-- The identifier of a test is made of slugs. -/
theorem isSlugChar_of_identifier (hread : File.read source = .ok file) (ht : t ∈ file.tests) :
    ∀ d ∈ t.case.identifier, isSlugChar d = true := by
  obtain ⟨i, hi⟩ := List.getElem?_of_mem ht
  obtain ⟨l, o, c, keyword, hsited⟩ := exists_sited hread hi
  obtain ⟨groups, tok, -, rfl⟩ := hsited.test
  intro d hd
  obtain hd | ⟨u, hu, hd⟩ := mem_join hd
  · exact List.all_eq_true.mp (by decide : slugSeparator.all isSlugChar = true) d hd
  · obtain ⟨title, -, rfl⟩ := List.mem_map.mp hu
    exact isSlugChar_of_mem_slugFrom hd

theorem not_trails (hread : File.read source = .ok file) :
    ∀ a ∈ file.tests.map Test.case, ∀ b ∈ file.tests.map Test.case, ¬ Trails a.identifier b.identifier := by
  rintro a - b hb ⟨s, hs, hsuffix⟩
  obtain ⟨t, ht, rfl⟩ := List.mem_map.mp hb
  have := isSlugChar_of_identifier hread ht s (hsuffix.subset List.mem_cons_self)
  obtain rfl | rfl := hs <;> exact absurd this (by decide)

/-- A test is located by its name and its identifier, wherever it was recorded. -/
theorem locate_of_named (hread : File.read source = .ok file) (ht : file.tests[i]? = some t)
    (hname : r.name = t.case.name) (hend : TestCase.isEndOf t.case.identifier r.identifier = true)
    (hnodup : ((file.tests.map Test.case).map TestCase.identifier).Nodup) :
    locate source r = .ok (file, t) := by
  have hfind := findAgain_of_apart (c := t.case) (i := i) (by rw [List.getElem?_map, ht]; rfl) hname hend
    hnodup (not_trails hread)
  have hbind : (TestCase.findAgain? (file.tests.map Test.case) r).bind (file.tests[·]?) = some t := by
    rw [hfind]
    exact ht
  simp only [locate, hread, Except.mapError, bind, Except.bind, hbind]
  rfl

end FluentChain

/-! ## §3 Attribute lists -/

namespace AttributeList

open Source Source.TokenSequence

variable {source : Text} {file : File} {t : Test}

/-- The parts of the identifier of a test hold no colon. -/
theorem exists_parts (hread : File.read source = .ok file) (ht : t ∈ file.tests) :
    ∃ n m, t.case.identifier = n ++ (memberSeparator ++ m) ∧ n.count ':' = 0 ∧ m.count ':' = 0 := by
  obtain ⟨l, hl, rfl⟩ := exists_read hread
  obtain ⟨i, hi⟩ := List.getElem?_of_mem ht
  obtain ⟨C₁, c, C₂, ms, m, ms', hclasses, hmethods, -, rfl, -⟩ := exists_method hi
  have hc : c ∈ l.classes source := by rw [hclasses]; simp
  have hcount : ∀ {k : Nat} {u : Token}, l.tokens[k]? = some u → u.kind = .name → u.text.count ':' = 0 :=
    fun hu hkind => (isMark_of_eq (by simp)).countP_named (isNamed_of_token hl hu hkind)
  have hm : m ∈ c.methods := by
    rw [hmethods]
    simp
  obtain ⟨k, u, hu, hkind, hname, -⟩ := (methodAt_of_mem_classes hl hc hm).name
  rw [classes_eq] at hc
  obtain ⟨H, hH, rfl⟩ := List.mem_map.mp hc
  obtain ⟨k', u', hu', hkind', hname'⟩ := (stands_of_mem (nested_of_tokenize hl) hH).2.name
  exact ⟨H.name, m.name, List.append_assoc .., hname' ▸ hcount hu' hkind', hname ▸ hcount hu hkind⟩

/-- No colon stands in a class or a method, so a class that holds no backslash is all that stands before the
one separator of an identifier. -/
theorem not_trails_of_parts {n m n' m' : Text} (hn' : '\\' ∉ n') (hcolon : n'.count ':' = 0)
    (hcolon' : m'.count ':' = 0) :
    ¬ Trails (n ++ (memberSeparator ++ m)) (n' ++ (memberSeparator ++ m')) := by
  rintro ⟨s, hs, p, hsuffix⟩
  have hsep : memberSeparator = [':', ':'] := rfl
  simp only [hsep, List.cons_append, List.nil_append] at hsuffix
  have htotal := congrArg (List.count ':') hsuffix
  simp only [List.count_append, List.count_cons, hcolon, hcolon', beq_self_eq_true,
    if_true] at htotal
  obtain rfl | rfl := hs
  · -- a backslash in the method: a colon stands before it, and two behind it
    obtain ⟨z, rfl, hz⟩ | ⟨z, rfl, hz⟩ := List.append_eq_append_iff.mp hsuffix
    · cases z with
      | nil => cases hz
      | cons d z =>
        obtain ⟨rfl, -⟩ := List.cons.inj hz
        simp at hn'
    · cases z with
      | nil => cases hz
      | cons d z =>
        obtain ⟨rfl, -⟩ := List.cons.inj hz
        simp only [List.count_append, List.count_cons, beq_self_eq_true, if_true] at htotal
        omega
  · simp only [beq_self_eq_true, if_true] at htotal
    omega

theorem container_of_parts {n m : Text} (hcolon : n.count ':' = 0) :
    (splitIdentifier (n ++ (memberSeparator ++ m))).1 = n := by
  have hfirst : ¬ memberSeparator <:+: n ++ [':'] := fun hinfix => by
    have hcount := hinfix.sublist.count_le ':'
    rw [List.count_append, hcolon] at hcount
    exact absurd hcount (by decide)
  rw [splitIdentifier_of_some (splitFirst_memberSeparator_iff.mpr ⟨rfl, hfirst⟩)]

theorem not_trails (hread : File.read source = .ok file)
    (hplain : ∀ c ∈ file.tests.map Test.case, '\\' ∉ c.container) :
    ∀ a ∈ file.tests.map Test.case, ∀ b ∈ file.tests.map Test.case, ¬ Trails a.identifier b.identifier := by
  intro a ha b hb
  have hclass := hplain b hb
  obtain ⟨t, ht, rfl⟩ := List.mem_map.mp ha
  obtain ⟨u, hu, rfl⟩ := List.mem_map.mp hb
  obtain ⟨n, m, hid, -, -⟩ := exists_parts hread ht
  obtain ⟨n', m', hid', hcolon, hcolon'⟩ := exists_parts hread hu
  rw [TestCase.container, hid', container_of_parts hcolon] at hclass
  rw [hid, hid']
  exact not_trails_of_parts hclass hcolon hcolon'

/-- A test is located by its name and its identifier, wherever it was recorded, if no class has a name with a
backslash. -/
theorem locate_of_named (hread : File.read source = .ok file) (ht : file.tests[i]? = some t)
    (hname : r.name = t.case.name) (hend : TestCase.isEndOf t.case.identifier r.identifier = true)
    (hnodup : ((file.tests.map Test.case).map TestCase.identifier).Nodup)
    (hplain : ∀ c ∈ file.tests.map Test.case, '\\' ∉ c.container) : locate source r = .ok (file, t) := by
  have hfind := findAgain_of_apart (c := t.case) (i := i) (by rw [List.getElem?_map, ht]; rfl) hname hend
    hnodup (not_trails hread hplain)
  have hbind : (TestCase.findAgain? (file.tests.map Test.case) r).bind (file.tests[·]?) = some t := by
    rw [hfind]
    exact ht
  simp only [locate, hread, Except.mapError, bind, Except.bind, hbind]
  rfl

end AttributeList

end Crosslink
