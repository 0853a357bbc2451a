import Crosslink.Proofs.Convergence

/-!
# Findings that are reported twice

A report leaves a finding out when the one before it says the same. Sorting brings findings of one
target, test and kind together, but it looks neither at their files nor at their messages, and keeps
the order they come in. So a finding is reported twice exactly when, among those at its place of the
order, one that says something else comes in between.

* §1 `pairwise_eraseRepsBy_iff`, when leaving out neighbours leaves no repetition.
* §2 `distinct_report_iff`, for any findings.
* §3 `together_findings_iff`, for the findings of a validation: links whose targets are written
  alike, and methods that name a test of several files more than once.

## Main statements

* `report_repeats_iff`: what a report holds, in which order, and when it repeats a finding.
* `validate_repeats`: a validation whose report repeats a finding.
-/

namespace Crosslink

/-! ## §1 Leaving out neighbours -/

section Neighbours

variable {α : Type} {r : α → α → Bool}

theorem eraseRepsBy_sublist : ∀ l : List α, (l.eraseRepsBy r).Sublist l
  | [] => .slnil
  | [_] => List.Sublist.refl _
  | a :: b :: l => by
      rw [eraseRepsBy_cons_cons]
      split
      · exact (eraseRepsBy_sublist (a :: l)).trans ((List.sublist_cons_self b l).cons_cons a)
      · exact (eraseRepsBy_sublist (b :: l)).cons_cons a

/-- Between two elements that are alike stand only elements that are like them. -/
def Unbroken (r : α → α → Bool) (l : List α) : Prop :=
  ∀ a b c, [a, b, c].Sublist l → r a c = true → r a b = true

theorem Unbroken.sublist {l l' : List α} (h : Unbroken r l) (hl : l'.Sublist l) : Unbroken r l' :=
  fun a b c habc => h a b c (habc.trans hl)

variable (refl : ∀ a, r a a = true) (symm : ∀ a b, r a b = true → r b a = true)
  (trans : ∀ a b c, r a b = true → r b c = true → r a c = true)

include symm trans in
/-- An element like the one before it makes no difference. -/
theorem unbroken_cons_cons_of_alike {a b : α} {l : List α} (hab : r a b = true) :
    Unbroken r (a :: b :: l) ↔ Unbroken r (a :: l) := by
  refine ⟨fun h => h.sublist ((List.sublist_cons_self b l).cons_cons a), fun h x y z hxyz hxz => ?_⟩
  obtain hbl | ⟨yz, hyz, hbl⟩ := List.sublist_cons_iff.mp hxyz
  · obtain hl | ⟨yz, hyz, hl⟩ := List.sublist_cons_iff.mp hbl
    · exact h x y z (hl.cons a) hxz
    · -- `b` stands first, and `a` may stand for it
      obtain ⟨rfl, rfl⟩ := List.cons.inj hyz
      have hay := h a y z (hl.cons_cons a) (trans _ _ _ hab hxz)
      exact trans _ _ _ (symm _ _ hab) hay
  · obtain ⟨rfl, rfl⟩ := List.cons.inj hyz
    obtain hl | ⟨z', hz, hl⟩ := List.sublist_cons_iff.mp hbl
    · exact h x y z (hl.cons_cons x) hxz
    · obtain ⟨rfl, rfl⟩ := List.cons.inj hz
      exact hab

/-- An element unlike the one behind it may not come again. -/
theorem unbroken_cons_cons_of_unlike {a b : α} {l : List α} (hab : r a b = false) :
    Unbroken r (a :: b :: l) ↔ (∀ c ∈ b :: l, r a c = false) ∧ Unbroken r (b :: l) := by
  constructor
  · refine fun h => ⟨fun c hc => ?_, h.sublist (List.sublist_cons_self a _)⟩
    obtain rfl | hc := List.mem_cons.mp hc
    · exact hab
    · rw [Bool.eq_false_iff]
      intro hac
      have hsub : [a, b, c].Sublist (a :: b :: l) :=
        ((List.singleton_sublist.mpr hc).cons_cons b).cons_cons a
      rw [h a b c hsub hac] at hab
      cases hab
  · rintro ⟨hunlike, h⟩ x y z hxyz hxz
    obtain hbl | ⟨yz, hyz, hbl⟩ := List.sublist_cons_iff.mp hxyz
    · exact h x y z hbl hxz
    · obtain ⟨rfl, rfl⟩ := List.cons.inj hyz
      rw [hunlike z (hbl.subset (by simp))] at hxz
      cases hxz

include refl symm trans in
/-- When every element like the one before it is left out, none is there twice exactly when those
that are alike stood together. -/
theorem pairwise_eraseRepsBy_iff : ∀ l : List α,
    (l.eraseRepsBy r).Pairwise (fun a b => r a b = false) ↔ Unbroken r l
  | [] => iff_of_true .nil fun a b c h => by simp at h
  | [x] => iff_of_true (List.pairwise_singleton _ x) fun a b c h => by
      simpa using h.length_le
  | a :: b :: l => by
      rw [eraseRepsBy_cons_cons]
      cases hab : r a b with
      | true =>
        rw [if_pos rfl, unbroken_cons_cons_of_alike symm trans hab]
        exact pairwise_eraseRepsBy_iff (a :: l)
      | false =>
        rw [if_neg Bool.false_ne_true, List.pairwise_cons, unbroken_cons_cons_of_unlike hab,
          pairwise_eraseRepsBy_iff (b :: l)]
        refine and_congr_left fun _ => ⟨fun h c hc => ?_, fun h c hc => ?_⟩
        · obtain ⟨d, hd, hdc⟩ := exists_mem_eraseRepsBy refl trans hc
          rw [Bool.eq_false_iff]
          intro hac
          have had := trans _ _ _ hac (symm _ _ hdc)
          rw [h d hd] at had
          cases had
        · exact h c (mem_of_mem_eraseRepsBy hc)

end Neighbours

/-! ## §2 Reports -/

/-- The other way around, findings at one place of the order are at one place of it. -/
theorem Finding.isLE_of_cmp_eq {a b : Finding} (h : a.cmp b = .eq) : (b.cmp a).isLE = true := by
  have hswap : b.cmp a = (a.cmp b).swap := Std.OrientedCmp.eq_swap
  rw [hswap, h]
  rfl

theorem Finding.same_symm (a b : Finding) (h : a.same b = true) : b.same a = true := by
  rw [same_iff] at *
  obtain ⟨hkind, htarget, htest, hfile, hmessage⟩ := h
  exact ⟨hkind.symm, htarget.symm, htest.symm, hfile.symm, hmessage.symm⟩

/-- What a sorted list of findings says is what some findings say. -/
structure SortedFrom (sorted findings : List Finding) : Prop where
  sound : ∀ f ∈ sorted, f ∈ findings
  complete : ∀ f ∈ findings, ∃ g ∈ sorted, g.same f = true
  ordered : sorted.Pairwise fun f g => (f.cmp g).isLE = true

/-- No two findings of a list say the same. -/
def Distinct (findings : List Finding) : Prop := findings.Pairwise fun f g => f.same g = false

/-- Between two findings that say the same, no other one comes up that stands at their place of the
order and says something else. -/
def Together (findings : List Finding) : Prop :=
  ∀ a b c, [a, b, c].Sublist findings → a.same c = true → a.cmp b = .eq → a.same b = true

theorem sortedFrom_report (findings : List Finding) : SortedFrom (report findings) findings where
  sound _ := mem_of_mem_report
  complete _ := exists_mem_report
  ordered := (List.pairwise_mergeSort Finding.cmp_trans Finding.cmp_total findings).sublist
    (eraseRepsBy_sublist _)

/-- Sorting keeps findings at one place of the order as they come. -/
theorem filter_cmp_mergeSort (a : Finding) (findings : List Finding) :
    (findings.mergeSort fun f g => (f.cmp g).isLE).filter (fun f => a.cmp f == .eq) =
      findings.filter fun f => a.cmp f == .eq := by
  rw [filter_mergeSort Finding.cmp_trans Finding.cmp_total]
  refine List.mergeSort_of_pairwise (List.pairwise_of_forall_mem_list fun f hf g hg => ?_)
  have haf : a.cmp f = .eq := by simpa using (List.mem_filter.mp hf).2
  have hag : a.cmp g = .eq := by simpa using (List.mem_filter.mp hg).2
  exact Finding.cmp_trans f a g (Finding.isLE_of_cmp_eq haf) (by rw [hag]; rfl)

/-- Of three findings at one place of the order a sorted list says how they come up. -/
theorem sublist_mergeSort_iff {a b c : Finding} {findings : List Finding} (hb : a.cmp b = .eq)
    (hc : a.cmp c = .eq) :
    [a, b, c].Sublist (findings.mergeSort fun f g => (f.cmp g).isLE) ↔
      [a, b, c].Sublist findings := by
  have ha : a.cmp a = .eq := Std.ReflCmp.compare_self
  have hself : [a, b, c].filter (fun f => a.cmp f == .eq) = [a, b, c] := by simp [ha, hb, hc]
  have hfilter : ∀ l : List Finding,
      [a, b, c].Sublist l ↔ [a, b, c].Sublist (l.filter fun f => a.cmp f == .eq) := by
    intro l
    refine ⟨fun h => ?_, fun h => h.trans List.filter_sublist⟩
    rw [← hself]
    exact h.filter _
  rw [hfilter, filter_cmp_mergeSort, ← hfilter]

/-- A report repeats no finding exactly when those that say the same come up together. -/
theorem distinct_report_iff (findings : List Finding) :
    Distinct (report findings) ↔ Together findings := by
  have hsorted := List.pairwise_mergeSort Finding.cmp_trans Finding.cmp_total findings
  rw [Distinct, report, pairwise_eraseRepsBy_iff Finding.same_refl Finding.same_symm
    Finding.same_trans]
  refine forall₃_congr fun a b c => ⟨fun h habc hac hb => ?_, fun h habc hac => ?_⟩
  · exact h ((sublist_mergeSort_iff hb (Finding.cmp_eq_of_same hac)).mpr habc) hac
  · -- what stands between two findings of one place of the order is of that place
    have hac' := Finding.cmp_eq_of_same hac
    have hpair := hsorted.sublist habc
    have hab : (a.cmp b).isLE = true := by
      simp only [List.pairwise_cons] at hpair
      exact hpair.1 b (by simp)
    have hbc : (b.cmp c).isLE = true := by
      simp only [List.pairwise_cons] at hpair
      exact hpair.2.1 c (by simp)
    have hb := Std.OrientedCmp.isLE_antisymm hab
      (Finding.cmp_trans b c a hbc (Finding.isLE_of_cmp_eq hac'))
    exact h ((sublist_mergeSort_iff hb hac').mp habc) hac hb

/-! ## §3 Validations -/

theorem Together.sublist {findings findings' : List Finding} (h : Together findings)
    (hl : findings'.Sublist findings) : Together findings' :=
  fun a b c habc => h a b c (habc.trans hl)

/-- Lists that have no finding in common may be looked at one by one. -/
theorem together_append {l₁ l₂ : List Finding} (h : ∀ a ∈ l₁, ∀ c ∈ l₂, a.same c = false) :
    Together (l₁ ++ l₂) ↔ Together l₁ ∧ Together l₂ := by
  refine ⟨fun ht => ⟨ht.sublist (List.sublist_append_left l₁ l₂),
    ht.sublist (List.sublist_append_right l₁ l₂)⟩, ?_⟩
  rintro ⟨h₁, h₂⟩ a b c habc hac
  obtain ⟨s₁, s₂, hs, hl₁, hl₂⟩ := List.sublist_append_iff.mp habc
  cases s₁ with
  | nil =>
    obtain rfl : [a, b, c] = s₂ := hs
    exact h₂ a b c hl₂ hac
  | cons x s₁ =>
    obtain rfl : a = x := (List.cons.inj hs).1
    cases s₂ with
    | nil =>
      rw [List.append_nil] at hs
      exact h₁ a b c (hs ▸ hl₁) hac
    | cons y s₂ =>
      -- the first of the three is from one list, the last from the other
      have hlast : c ∈ y :: s₂ := by
        have hlast := congrArg List.getLast? hs
        rw [List.getLast?_append, Option.or_of_isSome (by simp)] at hlast
        exact List.mem_of_getLast? hlast.symm
      rw [h a (hl₁.subset (by simp)) c (hl₂.subset hlast)] at hac
      cases hac

theorem together_flatMap {β : Type} {g : β → List Finding} {xs : List β}
    (h : xs.Pairwise fun x y => ∀ a ∈ g x, ∀ c ∈ g y, a.same c = false) :
    Together (xs.flatMap g) ↔ ∀ x ∈ xs, Together (g x) := by
  induction xs with
  | nil => exact iff_of_true (fun a b c habc => by simp at habc) (by simp)
  | cons x xs ih =>
    obtain ⟨hx, hxs⟩ := List.pairwise_cons.mp h
    rw [List.flatMap_cons, together_append, ih hxs, List.forall_mem_cons]
    intro a ha c hc
    obtain ⟨y, hy, hcy⟩ := List.mem_flatMap.mp hc
    exact hx y hy a ha c hcy

/-- A list that has been sorted by the order of its type is sorted. -/
theorem sorted_mergeSort {α : Type} [Ord α] [Std.TransOrd α] (items : List α) :
    (items.mergeSort fun a b => (compare a b).isLE).Pairwise fun a b => (compare a b).isLE := by
  have htrans : ∀ a b c : α, (compare a b).isLE → (compare b c).isLE → (compare a c).isLE :=
    fun _ _ _ => Std.TransOrd.isLE_trans
  have htotal : ∀ a b : α, (compare a b).isLE || (compare b a).isLE := by
    intro a b
    rw [Std.OrientedOrd.eq_swap (a := b)]
    cases compare a b <;> rfl
  exact List.pairwise_mergeSort htrans htotal items

/-- In a sorted set nothing is there twice. -/
theorem pairwise_sortedSet {α : Type} [Ord α] [DecidableEq α] [Std.TransOrd α]
    [Std.LawfulEqOrd α] (items : List α) : (sortedSet items).Pairwise (· ≠ ·) := by
  refine (pairwise_eraseRepsBy (r := (· == ·)) (fun a b c hab hbc hac => ?_)
    (sorted_mergeSort items)).imp fun h => by simpa using h
  obtain rfl : a = c := by simpa using hac
  exact beq_iff_eq.mpr (Std.LawfulEqOrd.eq_of_compare (Std.OrientedCmp.isLE_antisymm hab hbc))

/-- A sorted set is strictly sorted. -/
theorem sorted_sortedSet {α : Type} [Ord α] [DecidableEq α] [Std.TransOrd α] [Std.LawfulEqOrd α]
    (items : List α) : (sortedSet items).Pairwise fun a b => compare a b = .lt := by
  have hle := (sorted_mergeSort items).sublist (eraseRepsBy_sublist (r := (· == ·)) _)
  refine (hle.and (pairwise_sortedSet items)).imp ?_
  intro a b ⟨hab, hne⟩
  cases h : compare a b with
  | lt => rfl
  | eq => exact absurd (Std.LawfulEqOrd.eq_of_compare h) hne
  | gt => simp [h] at hab

instance : Std.TransOrd Target :=
  inferInstanceAs (Std.TransCmp (compareLex (compareOn Target.className) (compareOn Target.method)))

instance : Std.LawfulEqOrd Target where
  eq_of_compare {a b} h := by
    obtain ⟨hclass, hmethod⟩ := compareLex_eq_eq.mp h
    have hclass : a.className = b.className := Std.LawfulEqCmp.eq_of_compare hclass
    have hmethod : a.method = b.method := Std.LawfulEqCmp.eq_of_compare hmethod
    cases a
    cases b
    simp_all

theorem Finding.test_eq_of_cmp_eq {a b : Finding} (h : a.cmp b = .eq) : a.test = b.test := by
  have htest : compare a.test b.test = .eq := (compareLex_eq_eq.mp (compareLex_eq_eq.mp h).2).1
  exact Std.LawfulEqCmp.eq_of_compare htest

theorem Finding.canonical_eq_of_cmp_eq {a b : Finding} (h : a.cmp b = .eq) :
    a.canonical = b.canonical := by
  have hcanonical : compare a.canonical b.canonical = .eq := (compareLex_eq_eq.mp h).1
  exact Std.LawfulEqCmp.eq_of_compare hcanonical

/-- Between two equal elements stand only elements equal to them. -/
def Grouped {β : Type} (l : List β) : Prop := ∀ x y, [x, y, x].Sublist l → x = y

namespace Validation

variable {r : Registry} {p : Production.Index} {f g : Finding} {method : Target}
  {entry : Production.Entry} {test : Text}

/-- What the links of a test come to. -/
def linkFindings (r : Registry) (p : Production.Index) (test : Text) : List Finding :=
  (r.linksOf test).flatMap (checkLink r p test)

/-- What the back-references of a method come to. -/
def referenceFindings (r : Registry) (method : Target) (entry : Production.Entry) : List Finding :=
  entry.testedBy.flatMap (checkBackReference r method entry)

/-- The files in which a method asks for the link of a test: those of all records of the test, once
for each back-reference that names it by itself. -/
def askingFiles (r : Registry) (entry : Production.Entry) (test : Text) : List (List Component) :=
  (entry.testedBy.filter fun reference => reference.member.isSome && reference.names test).flatMap
    fun _ => (r.records.filter (·.identifier == test)).map fun record => record.file.components

theorem findings_eq (r : Registry) (p : Production.Index) :
    findings r p = r.identifiers.flatMap (linkFindings r p) ++
      (p.methods.flatMap fun (method, entry) => referenceFindings r method entry) ++
      r.duplicates.map fun (test, count) => duplicate r test count := by
  simp only [findings, Registry.linkView, List.flatMap_map, referenceFindings]
  rfl

theorem of_mem_linkFindings (h : f ∈ linkFindings r p test) :
    f.test = test ∧ (f.kind = .missingTestedBy ∨ f.kind = .danglingLink) := by
  obtain ⟨link, -, hf⟩ := List.mem_flatMap.mp h
  refine ⟨(checkLink_place hf).1, ?_⟩
  cases hm : p.method? link.target with
  | none => exact .inr (kind_of_checkLink hm hf)
  | some entry =>
    rw [checkLink_of_method? hm] at hf
    split at hf
    · cases hf
    · exact .inl (by rw [List.mem_singleton.mp hf])

theorem of_mem_referenceFindings (h : f ∈ referenceFindings r method entry) :
    f.target = some method ∧
      ((f.kind = .orphanedBackReference ∧ f.file = some entry.file ∧
        f.message = method.canonical ++ " names unknown test " ++ f.test) ∨
      (f.kind = .missingTestLink ∧
        f.message = method.canonical ++ " names " ++ f.test ++ " but the test does not link it")) := by
  obtain ⟨reference, -, hf⟩ := List.mem_flatMap.mp h
  rw [checkBackReference_eq] at hf
  split at hf
  · obtain rfl := List.mem_singleton.mp hf
    exact ⟨rfl, .inl ⟨rfl, rfl, rfl⟩⟩
  · split at hf
    · cases hf
    · obtain ⟨record, -, rfl⟩ := List.mem_map.mp hf
      exact ⟨rfl, .inr ⟨rfl, rfl⟩⟩

/-- Of a method, findings at one place of the order differ in their file at most. -/
theorem same_of_mem_referenceFindings (hf : f ∈ referenceFindings r method entry)
    (hg : g ∈ referenceFindings r method entry) (h : f.cmp g = .eq)
    (hfile : f.kind = .missingTestLink →
      f.file.map Path.components = g.file.map Path.components) : f.same g = true := by
  have hkind := Finding.kind_eq_of_cmp_eq h
  have htest := Finding.test_eq_of_cmp_eq h
  obtain ⟨hftarget, ⟨hfkind, hffile, hfmessage⟩ | ⟨hfkind, hfmessage⟩⟩ := of_mem_referenceFindings hf
  · obtain ⟨hgtarget, ⟨-, hgfile, hgmessage⟩ | ⟨hgkind, -⟩⟩ := of_mem_referenceFindings hg
    · rw [Finding.same_iff, hftarget, hgtarget, hffile, hgfile, hfmessage, hgmessage, htest]
      exact ⟨hkind, rfl, rfl, rfl, rfl⟩
    · rw [hkind, hgkind] at hfkind
      cases hfkind
  · obtain ⟨hgtarget, ⟨hgkind, -, -⟩ | ⟨-, hgmessage⟩⟩ := of_mem_referenceFindings hg
    · rw [hkind, hgkind] at hfkind
      cases hfkind
    · rw [Finding.same_iff, hftarget, hgtarget, hfile hfkind, hfmessage, hgmessage, htest]
      exact ⟨hkind, rfl, rfl, rfl, rfl⟩

/-- True for a finding that asks for the link of a test. -/
def asksFor (test : Text) (f : Finding) : Bool := f.kind == .missingTestLink && f.test == test

/-- Where one back-reference asks for the link of a test. -/
theorem files_checkBackReference (r : Registry) (method : Target) (entry : Production.Entry)
    (test : Text) (reference : BackReference) :
    ((checkBackReference r method entry reference).filter (asksFor test)).map
        (·.file.map Path.components) =
      if linksBack r method test then [] else
        if reference.member.isSome && reference.names test then
          (r.records.filter (·.identifier == test)).map fun record => some record.file.components
        else [] := by
  have hasks : ∀ x : RegisteredTest, asksFor test ⟨.missingTestLink, some method, x.identifier,
      some x.file, method.canonical ++ " names " ++ x.identifier ++
        " but the test does not link it"⟩ = (x.identifier == test) := fun x => by simp [asksFor]
  rw [checkBackReference_eq]
  split
  · rename_i hnamed
    have hnone : reference.names test = true → r.records.filter (·.identifier == test) = [] := by
      refine fun hnames => List.filter_eq_nil_iff.mpr fun x hx hid => ?_
      have hmem : x ∈ r.named reference :=
        List.mem_filter.mpr ⟨hx, by rwa [beq_iff_eq.mp hid]⟩
      rw [hnamed] at hmem
      cases hmem
    have horphan : ∀ file message, asksFor test
        ⟨.orphanedBackReference, some method, reference.display, file, message⟩ = false :=
      fun _ _ => rfl
    by_cases hnames : reference.names test = true
    · simp [horphan, hnone hnames]
    · simp [horphan, hnames]
  · split
    · rename_i hmember
      simp [Option.isNone_iff_eq_none.mp hmember]
    · rename_i hmember
      have hsome : reference.member.isSome = true := by
        simpa [Option.isSome_iff_ne_none] using hmember
      rw [List.filter_map, List.map_map, Registry.named, List.filter_filter, List.filter_filter]
      simp only [Function.comp_def, hasks, hsome, Bool.true_and, Option.map_some]
      -- the records of the test are named, and link nothing, all or none of them
      by_cases hback : linksBack r method test = true
      · rw [if_pos hback, List.map_eq_nil_iff, List.filter_eq_nil_iff]
        intro x _ hx
        simp only [Bool.and_eq_true, beq_iff_eq, Bool.not_eq_true'] at hx
        obtain ⟨⟨rfl, hlost⟩, -⟩ := hx
        rw [hback] at hlost
        cases hlost
      · rw [if_neg hback]
        by_cases hnames : reference.names test = true
        · rw [if_pos hnames]
          refine congrArg (List.map fun x : RegisteredTest => some x.file.components)
            (List.filter_congr fun x _ => ?_)
          by_cases hid : x.identifier = test
          · simp [hid, hback, hnames]
          · simp [beq_eq_false_iff_ne.mpr hid]
        · rw [if_neg hnames, List.map_eq_nil_iff, List.filter_eq_nil_iff]
          intro x _ hx
          simp only [Bool.and_eq_true, beq_iff_eq] at hx
          obtain ⟨⟨rfl, -⟩, hnamed⟩ := hx
          exact hnames hnamed

theorem files_referenceFindings (r : Registry) (method : Target) (entry : Production.Entry)
    (test : Text) :
    ((referenceFindings r method entry).filter (asksFor test)).map (·.file.map Path.components) =
      if linksBack r method test then [] else (askingFiles r entry test).map some := by
  rw [referenceFindings, List.filter_flatMap, List.map_flatMap]
  simp only [files_checkBackReference]
  by_cases hback : linksBack r method test = true
  · simp [hback]
  · simp only [hback, Bool.false_eq_true, if_false, askingFiles, List.map_flatMap, List.map_map]
    induction entry.testedBy with
    | nil => rfl
    | cons reference rest ih =>
      rw [List.flatMap_cons, ih, List.filter_cons]
      split <;> simp [Function.comp_def]

theorem sublist_map_three {β γ : Type} {g : β → γ} {l : List β} {x y z : γ}
    (h : [x, y, z].Sublist (l.map g)) :
    ∃ a b c, [a, b, c].Sublist l ∧ g a = x ∧ g b = y ∧ g c = z := by
  obtain ⟨l', hl', hmap⟩ := List.sublist_map_iff.mp h
  match l', hmap with
  | [a, b, c], hmap =>
    obtain ⟨rfl, rfl, rfl⟩ : x = g a ∧ y = g b ∧ z = g c := by simpa using hmap
    exact ⟨a, b, c, hl', rfl, rfl, rfl⟩

theorem grouped_map {β γ : Type} {g : β → γ} (hg : Function.Injective g) {l : List β} :
    Grouped (l.map g) ↔ Grouped l := by
  constructor
  · intro h x y hxy
    exact hg (h (g x) (g y) (hxy.map g))
  · intro h x y hxy
    obtain ⟨a, b, c, habc, rfl, rfl, hc⟩ := sublist_map_three hxy
    obtain rfl := hg hc
    rw [h c b habc]

/-- A method asks for no link twice exactly when, of the files in which it asks for the link of a
test, those that are the same stand together. -/
theorem together_referenceFindings_iff (r : Registry) (method : Target) (entry : Production.Entry) :
    Together (referenceFindings r method entry) ↔
      ∀ test, linksBack r method test = false → Grouped (askingFiles r entry test) := by
  constructor
  · intro h test hback
    rw [← grouped_map fun _ _ => Option.some.inj]
    have hfiles := files_referenceFindings r method entry test
    rw [if_neg (by simp [hback])] at hfiles
    rw [← hfiles]
    intro x y hxy
    obtain ⟨a, b, c, habc, rfl, rfl, hc⟩ := sublist_map_three hxy
    have hasks : ∀ f ∈ [a, b, c], f ∈ referenceFindings r method entry ∧
        f.kind = .missingTestLink ∧ f.test = test := by
      intro f hf
      simpa [asksFor] using List.mem_filter.mp (habc.subset hf)
    have hcmp : ∀ f ∈ [a, b, c], a.cmp f = .eq := by
      intro f hf
      obtain ⟨hmem, hkind, htest⟩ := hasks f hf
      obtain ⟨hmema, hkinda, htesta⟩ := hasks a (by simp)
      have htarget := (of_mem_referenceFindings hmem).1
      have htargeta := (of_mem_referenceFindings hmema).1
      simp [Finding.cmp, Finding.canonical, compareLex, compareOn, hkind, hkinda, htest, htesta,
        htarget, htargeta, Std.ReflCmp.compare_self]
    have hac := same_of_mem_referenceFindings (hasks a (by simp)).1 (hasks c (by simp)).1
      (hcmp c (by simp)) fun _ => hc.symm
    have hab := h a b c (habc.trans List.filter_sublist) hac (hcmp b (by simp))
    exact (Finding.same_iff.mp hab).2.2.2.1
  · intro h a b c habc hac hab
    have hmem : ∀ f ∈ [a, b, c], f ∈ referenceFindings r method entry := fun f hf => habc.subset hf
    refine same_of_mem_referenceFindings (hmem a (by simp)) (hmem b (by simp)) hab fun hkind => ?_
    have hac' := Finding.cmp_eq_of_same hac
    have hasks : [a, b, c].filter (asksFor a.test) = [a, b, c] := by
      simp [asksFor, hkind, ← Finding.kind_eq_of_cmp_eq hab, ← Finding.kind_eq_of_cmp_eq hac',
        ← Finding.test_eq_of_cmp_eq hab, ← Finding.test_eq_of_cmp_eq hac']
    have hsub := (habc.filter (asksFor a.test)).map fun f => f.file.map Path.components
    rw [hasks, files_referenceFindings] at hsub
    have hback : linksBack r method a.test = false := by
      rw [Bool.eq_false_iff]
      intro hback
      rw [if_pos hback] at hsub
      simp at hsub
    rw [if_neg (by simp [hback])] at hsub
    simp only [List.map_cons, List.map_nil, ← (Finding.same_iff.mp hac).2.2.2.1] at hsub
    exact (grouped_map fun _ _ => Option.some.inj).mpr (h a.test hback) _ _ hsub

/-- Findings on the links of two tests are about different tests. -/
theorem pairwise_linkFindings (r : Registry) (p : Production.Index) :
    r.identifiers.Pairwise fun test test' => ∀ f ∈ linkFindings r p test,
      ∀ g ∈ linkFindings r p test', f.same g = false := by
  refine (pairwise_sortedSet _).imp fun hne f hf g hg => ?_
  rw [Bool.eq_false_iff]
  intro hsame
  have htest := (Finding.same_iff.mp hsame).2.2.1
  rw [(of_mem_linkFindings hf).1, (of_mem_linkFindings hg).1] at htest
  exact hne htest

theorem pairwise_methods (p : Production.Index) :
    p.methods.Pairwise fun m m' => m.1 ≠ m'.1 := by
  refine List.Pairwise.filterMap _ (fun t t' hne m hm m' hm' => ?_) (pairwise_sortedSet _)
  obtain ⟨entry, -, rfl⟩ := Option.map_eq_some_iff.mp hm
  obtain ⟨entry', -, rfl⟩ := Option.map_eq_some_iff.mp hm'
  exact hne

/-- Findings on the back-references of two methods are about different methods. -/
theorem pairwise_referenceFindings (r : Registry) (p : Production.Index) :
    p.methods.Pairwise fun m m' => ∀ f ∈ referenceFindings r m.1 m.2,
      ∀ g ∈ referenceFindings r m'.1 m'.2, f.same g = false := by
  refine (pairwise_methods p).imp fun hne f hf g hg => ?_
  rw [Bool.eq_false_iff]
  intro hsame
  have htarget := (Finding.same_iff.mp hsame).2.1
  rw [(of_mem_referenceFindings hf).1, (of_mem_referenceFindings hg).1] at htarget
  exact hne (Option.some.inj htarget)

/-- A test is found to be there more than once no more than once. -/
theorem together_duplicates (r : Registry) :
    Together (r.duplicates.map fun (test, count) => duplicate r test count) := by
  have hpairwise : (r.duplicates.map fun (test, count) => duplicate r test count).Pairwise
      fun f g => f.test ≠ g.test := by
    rw [List.pairwise_map]
    refine List.Pairwise.filter _ (List.pairwise_map.mpr ?_)
    exact pairwise_sortedSet _
  intro a b c habc hac
  have hac' := (List.pairwise_cons.mp (hpairwise.sublist habc)).1 c (by simp)
  exact absurd (Finding.same_iff.mp hac).2.2.1 hac'

/-- When the findings of a validation that say the same come up together. -/
theorem together_findings_iff (r : Registry) (p : Production.Index) :
    Together (findings r p) ↔ (∀ test, Together (linkFindings r p test)) ∧
      ∀ method entry, p.method? method = some entry → ∀ test, linksBack r method test = false →
        Grouped (askingFiles r entry test) := by
  -- a finding of one part is of another kind than those of the others
  have hparts : ∀ f ∈ r.identifiers.flatMap (linkFindings r p), ∀ g ∈ p.methods.flatMap
      (fun (method, entry) => referenceFindings r method entry), f.same g = false := by
    intro f hf g hg
    obtain ⟨test, -, hf⟩ := List.mem_flatMap.mp hf
    obtain ⟨⟨method, entry⟩, -, hg⟩ := List.mem_flatMap.mp hg
    rw [Bool.eq_false_iff]
    intro hsame
    have hkind := (Finding.same_iff.mp hsame).1
    obtain hfkind | hfkind := (of_mem_linkFindings hf).2 <;>
      obtain ⟨hgkind, -⟩ | ⟨hgkind, -⟩ := (of_mem_referenceFindings hg).2 <;>
      simp [hfkind, hgkind] at hkind
  have hduplicates : ∀ f ∈ r.identifiers.flatMap (linkFindings r p) ++ p.methods.flatMap
      (fun (method, entry) => referenceFindings r method entry),
      ∀ g ∈ r.duplicates.map fun (test, count) => duplicate r test count, f.same g = false := by
    intro f hf g hg
    obtain ⟨⟨test, count⟩, -, rfl⟩ := List.mem_map.mp hg
    rw [Bool.eq_false_iff]
    intro hsame
    have hkind := (Finding.same_iff.mp hsame).1
    obtain hf | hf := List.mem_append.mp hf
    · obtain ⟨test, -, hf⟩ := List.mem_flatMap.mp hf
      obtain hfkind | hfkind := (of_mem_linkFindings hf).2 <;> simp [hfkind, duplicate] at hkind
    · obtain ⟨⟨method, entry⟩, -, hf⟩ := List.mem_flatMap.mp hf
      obtain ⟨hfkind, -⟩ | ⟨hfkind, -⟩ := (of_mem_referenceFindings hf).2 <;>
        simp [hfkind, duplicate] at hkind
  rw [findings_eq, together_append hduplicates, together_append hparts,
    together_flatMap (pairwise_linkFindings r p), together_flatMap (pairwise_referenceFindings r p),
    and_iff_left (together_duplicates r)]
  refine and_congr ⟨fun h test => ?_, fun h test _ => h test⟩ ?_
  · by_cases htest : test ∈ r.identifiers
    · exact h test htest
    · have hnil : linkFindings r p test = [] := by
        refine List.flatMap_eq_nil_iff.mpr fun link hlink => ?_
        exact absurd (Registry.mem_identifiers_of_mem_linksOf hlink) htest
      rw [hnil]
      exact fun a b c habc => by simp at habc
  · simp only [Prod.forall, Production.Index.mem_methods, together_referenceFindings_iff]

theorem length_checkLink_le (r : Registry) (p : Production.Index) (test : Text) (link : Link) :
    (checkLink r p test link).length ≤ 1 := by
  unfold checkLink
  dsimp only
  split
  · split <;> simp
  · split
    · split <;> simp
    · split <;> simp

/-- Where the targets a test links are told apart by what is written of them, what is found of its
links comes up together. -/
theorem together_linkFindings (h : ∀ l ∈ r.linksOf test, ∀ l' ∈ r.linksOf test,
    l.target.canonical = l'.target.canonical → l.target = l'.target) :
    Together (linkFindings r p test) := by
  intro a b c habc _ hab
  obtain ⟨l, hl, ha⟩ := List.mem_flatMap.mp (habc.subset (List.mem_cons_self))
  obtain ⟨l', hl', hb⟩ := List.mem_flatMap.mp (habc.subset (by simp : b ∈ [a, b, c]))
  have hcanonical := Finding.canonical_eq_of_cmp_eq hab
  rw [Finding.canonical, Finding.canonical, (checkLink_place ha).2.2, (checkLink_place hb).2.2]
    at hcanonical
  have htarget := h l hl l' hl' (Option.some.inj hcanonical)
  have hsame : checkLink r p test l' = checkLink r p test l := by
    unfold checkLink
    rw [htarget]
  rw [hsame] at hb
  have hle := length_checkLink_le r p test l
  rcases hc : checkLink r p test l with _ | ⟨f, _ | ⟨g, fs⟩⟩
  case nil =>
    rw [hc] at ha
    cases ha
  case cons.nil =>
    rw [hc, List.mem_singleton] at ha hb
    rw [ha, hb]
    exact Finding.same_refl f
  case cons.cons =>
    rw [hc] at hle
    simp at hle

end Validation

open Validation

/-- **Reports and repetitions.** A report holds what the findings it is made from say, in the order of
targets, tests and kinds. It repeats a finding exactly when, between two findings that say the same,
another one of their place in the order comes up that says something else. Of the findings of a
validation this can only be a finding on a link whose target is written like another target that the
test links, or the link of a test that is registered from several files, for which a method asks
again in a file after it has asked in another. -/
theorem report_repeats_iff (fs : List Finding) (r : Registry) (p : Production.Index) :
    (SortedFrom (report fs) fs ∧ (Distinct (report fs) ↔ Together fs)) ∧
    SortedFrom (validate r p) (findings r p) ∧
    (Distinct (validate r p) ↔ (∀ test, Together (linkFindings r p test)) ∧
      ∀ method entry, p.method? method = some entry → ∀ test,
        linksBack r method test = false → Grouped (askingFiles r entry test)) ∧
    ∀ test, (∀ l ∈ r.linksOf test, ∀ l' ∈ r.linksOf test,
      l.target.canonical = l'.target.canonical → l.target = l'.target) →
        Together (linkFindings r p test) := by
  refine ⟨⟨sortedFrom_report fs, distinct_report_iff fs⟩, sortedFrom_report _, ?_,
    fun test h => together_linkFindings h⟩
  rw [validate, distinct_report_iff, together_findings_iff]

/-- A test in two files that a method names twice: both records are reported twice, in turn. -/
theorem validate_repeats :
    let r : Registry := ⟨[recordOf "a/T.php" "t" [], recordOf "b/T.php" "t" []]⟩
    let p := indexOf [⟨"T", some "t"⟩, ⟨"T", some "t"⟩]
    ¬ Distinct (validate r p) := by
  intro r p hdistinct
  rw [validate, distinct_report_iff, together_findings_iff] at hdistinct
  have hmethod : p.method? ⟨"A", some "g"⟩ =
      some ⟨"a.php", [⟨"T", some "t"⟩, ⟨"T", some "t"⟩]⟩ := by decide
  have hgrouped := hdistinct.2 _ _ hmethod "T::t" (by decide)
  have hturns : [Path.components "a/T.php", Path.components "b/T.php", Path.components "a/T.php"].Sublist
      (askingFiles r ⟨"a.php", [⟨"T", some "t"⟩, ⟨"T", some "t"⟩]⟩ "T::t") := by decide
  exact absurd (hgrouped _ _ hturns) (by decide)

end Crosslink
