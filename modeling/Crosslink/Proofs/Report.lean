import Crosslink.Validation

/-!
# Sorted reports

A report is a list of findings sorted by target, test and kind, in which a finding that says the
same as the one before it is left out. This module says what sorting and leaving out do to a list,
and from it how a report changes when findings are taken out of the list it is made from.

## Main statements

* `filter_mergeSort`: taking elements out of a list and sorting it may change places.
* `filter_eraseRepsBy`: so may taking elements out of a sorted list and leaving out repetitions.
* `pairwise_eraseRepsBy`: what is left when repetitions are left out of a sorted list has none.
* `filter_report`: so the report on some of the kinds is that part of the whole report.
* `mem_report`: a report holds what it is made from, if its findings can be told apart.
-/

namespace Crosslink

/-! ## §1 Sorting -/

section Sorting

variable {α : Type} {le : α → α → Bool}

/-- A list is cut in one way only into a part that fails a test and a part that passes it. -/
theorem append_inj_of_split (p : α → Bool) :
    ∀ {l₁ m₁ l₂ m₂ : List α}, l₁ ++ l₂ = m₁ ++ m₂ →
      (∀ x ∈ l₁, p x = false) → (∀ x ∈ m₁, p x = false) →
      (∀ x ∈ l₂, p x = true) → (∀ x ∈ m₂, p x = true) → l₁ = m₁ ∧ l₂ = m₂
  | [], [], _, _, h, _, _, _, _ => ⟨rfl, h⟩
  | [], y :: m₁, l₂, m₂, h, _, hm, hl, _ => by
      have hy : y ∈ l₂ := by rw [show l₂ = (y :: m₁) ++ m₂ from h]; simp
      have := hm y (by simp)
      simp [hl y hy] at this
  | x :: l₁, [], l₂, m₂, h, hl, _, _, hm => by
      have hx : x ∈ m₂ := by rw [← show (x :: l₁) ++ l₂ = m₂ from h]; simp
      have := hl x (by simp)
      simp [hm x hx] at this
  | x :: l₁, y :: m₁, l₂, m₂, h, hl₁, hm₁, hl₂, hm₂ => by
      obtain ⟨rfl, ht⟩ := List.cons.inj h
      obtain ⟨rfl, rfl⟩ := append_inj_of_split p ht
        (fun z hz => hl₁ z (List.mem_cons_of_mem _ hz))
        (fun z hz => hm₁ z (List.mem_cons_of_mem _ hz)) hl₂ hm₂
      exact ⟨rfl, rfl⟩

/-- Where a stable sort puts the first element of a list: behind what is smaller. -/
theorem mergeSort_cons_split (trans : ∀ a b c, le a b → le b c → le a c)
    (total : ∀ a b, le a b || le b a) (a : α) (l : List α) :
    ∃ l₁ l₂, (a :: l).mergeSort le = l₁ ++ a :: l₂ ∧ l.mergeSort le = l₁ ++ l₂ ∧
      (∀ b ∈ l₁, le a b = false) ∧ ∀ b ∈ l₂, le a b = true := by
  obtain ⟨l₁, l₂, hcons, hl, hlt⟩ := List.mergeSort_cons trans total a l
  refine ⟨l₁, l₂, hcons, hl, fun b hb => by simpa using hlt b hb, fun b hb => ?_⟩
  have hsorted := List.pairwise_mergeSort trans total (a :: l)
  rw [hcons] at hsorted
  exact List.rel_of_pairwise_cons (List.pairwise_append.mp hsorted).2.1 hb

/-- Taking elements out of a list and sorting it may change places. -/
theorem filter_mergeSort (trans : ∀ a b c, le a b → le b c → le a c)
    (total : ∀ a b, le a b || le b a) (p : α → Bool) (l : List α) :
    (l.mergeSort le).filter p = (l.filter p).mergeSort le := by
  induction l with
  | nil => simp
  | cons a l ih =>
    obtain ⟨l₁, l₂, hcons, hl, hlt, hge⟩ := mergeSort_cons_split trans total a l
    rw [hl, List.filter_append] at ih
    rw [hcons, List.filter_append]
    cases ha : p a with
    | false => simpa [List.filter_cons, ha] using ih
    | true =>
      obtain ⟨m₁, m₂, mcons, hm, mlt, mge⟩ :=
        mergeSort_cons_split trans total a (l.filter p)
      obtain ⟨rfl, rfl⟩ := append_inj_of_split (le a) (ih.trans hm)
        (fun x hx => hlt x (List.mem_filter.mp hx).1) mlt
        (fun x hx => hge x (List.mem_filter.mp hx).1) mge
      simp [ha, mcons]

end Sorting

/-! ## §2 Leaving out repetitions -/

section Repetitions

variable {α : Type} {r : α → α → Bool}

theorem eraseRepsBy_loop (a : α) (l acc : List α) :
    List.eraseRepsBy.loop r a l acc = acc.reverse ++ List.eraseRepsBy.loop r a l [] := by
  induction l generalizing a acc with
  | nil => simp [List.eraseRepsBy.loop]
  | cons b l ih =>
    simp only [List.eraseRepsBy.loop]
    split
    · exact ih a acc
    · rw [ih b (a :: acc), ih b [a]]
      simp

@[simp] theorem eraseRepsBy_nil : List.eraseRepsBy r [] = [] := rfl

@[simp] theorem eraseRepsBy_singleton (a : α) : List.eraseRepsBy r [a] = [a] := rfl

/-- The second of two elements is left out when it repeats the first. -/
theorem eraseRepsBy_cons_cons (a b : α) (l : List α) :
    List.eraseRepsBy r (a :: b :: l) =
      if r a b then List.eraseRepsBy r (a :: l) else a :: List.eraseRepsBy r (b :: l) := by
  simp only [List.eraseRepsBy, List.eraseRepsBy.loop]
  cases hab : r a b with
  | true => simp
  | false =>
    simp only [Bool.false_eq_true, if_false]
    rw [eraseRepsBy_loop]
    rfl

theorem mem_of_mem_eraseRepsBy {x : α} :
    ∀ {l : List α}, x ∈ l.eraseRepsBy r → x ∈ l
  | [], h => h
  | [_], h => h
  | a :: b :: l, h => by
      rw [eraseRepsBy_cons_cons] at h
      split at h
      · rcases List.mem_cons.mp (mem_of_mem_eraseRepsBy h) with rfl | hl
        · simp
        · simp [hl]
      · rcases List.mem_cons.mp h with rfl | hl
        · simp
        · exact List.mem_cons_of_mem _ (mem_of_mem_eraseRepsBy hl)

/-- What is left out repeats something that is kept. -/
theorem exists_mem_eraseRepsBy (refl : ∀ a, r a a = true)
    (trans : ∀ a b c, r a b = true → r b c = true → r a c = true) {x : α} :
    ∀ {l : List α}, x ∈ l → ∃ y ∈ l.eraseRepsBy r, r y x = true
  | [a], h => by
      obtain rfl := List.mem_singleton.mp h
      exact ⟨x, by simp, refl x⟩
  | a :: b :: l, h => by
      rw [eraseRepsBy_cons_cons]
      by_cases hab : r a b = true
      · rw [if_pos hab]
        rcases List.mem_cons.mp h with rfl | h
        · exact exists_mem_eraseRepsBy refl trans (l := x :: l) (by simp)
        · rcases List.mem_cons.mp h with rfl | h
          · obtain ⟨y, hy, hya⟩ :=
              exists_mem_eraseRepsBy refl trans (x := a) (l := a :: l) (by simp)
            exact ⟨y, hy, trans y a x hya hab⟩
          · exact exists_mem_eraseRepsBy refl trans (List.mem_cons_of_mem _ h)
      · rw [if_neg hab]
        rcases List.mem_cons.mp h with rfl | h
        · exact ⟨x, by simp, refl x⟩
        · obtain ⟨y, hy, hyx⟩ := exists_mem_eraseRepsBy refl trans h
          exact ⟨y, List.mem_cons_of_mem _ hy, hyx⟩

/-- Taking elements out of a sorted list and leaving out repetitions may change places, when
elements that stand between two of which one repeats the other are taken out with them. -/
theorem filter_eraseRepsBy (le : α → α → Bool) (p : α → Bool)
    (refl : ∀ a, le a a = true)
    (hp : ∀ a b c, le a b = true → le b c = true → r a c = true → p b = p a) :
    ∀ {l : List α}, l.Pairwise (fun a b => le a b = true) →
      (l.eraseRepsBy r).filter p = (l.filter p).eraseRepsBy r
  | [], _ => rfl
  | [a], _ => by cases ha : p a <;> simp [ha]
  | a :: b :: l, h => by
      have hb : (b :: l).Pairwise (fun a b => le a b = true) := (List.pairwise_cons.mp h).2
      have hab : le a b = true := (List.pairwise_cons.mp h).1 b (by simp)
      have ha : (a :: l).Pairwise (fun a b => le a b = true) :=
        List.pairwise_cons.mpr ⟨fun c hc => (List.pairwise_cons.mp h).1 c (by simp [hc]),
          (List.pairwise_cons.mp hb).2⟩
      rw [eraseRepsBy_cons_cons]
      by_cases hr : r a b = true
      · -- `b` repeats `a`, so both are kept or neither
        have hpb : p b = p a := hp a b b hab (refl b) hr
        rw [if_pos hr, filter_eraseRepsBy le p refl hp ha]
        cases hpa : p a <;> rw [hpa] at hpb <;>
          simp [hpa, hpb, eraseRepsBy_cons_cons, hr]
      · rw [if_neg hr, List.filter_cons, filter_eraseRepsBy le p refl hp hb]
        cases hpa : p a with
        | false => simp [hpa]
        | true =>
          rw [if_pos rfl, List.filter_cons (x := a), if_pos hpa]
          -- nothing kept behind `a` repeats it: `b` would have to go with `a`
          cases hl : (b :: l).filter p with
          | nil => simp
          | cons c m =>
            have hac : ¬ r a c = true := by
              intro hac
              have hc : c ∈ b :: l ∧ p c = true := List.mem_filter.mp (by rw [hl]; simp)
              rcases List.mem_cons.mp hc.1 with rfl | hcl
              · exact hr hac
              · have hpb : p b = p a :=
                  hp a b c hab ((List.pairwise_cons.mp hb).1 c hcl) hac
                rw [hpa] at hpb
                rw [List.filter_cons, if_pos hpb] at hl
                obtain ⟨rfl, -⟩ := List.cons.inj hl
                exact hr hac
            rw [eraseRepsBy_cons_cons, if_neg hac]

/-- In what is left of a sorted list nothing repeats anything, when what stands between an element
and its repetition repeats it too. -/
theorem pairwise_eraseRepsBy {le : α → α → Bool}
    (between : ∀ a b c, le a b = true → le b c = true → r a c = true → r a b = true) :
    ∀ {l : List α}, l.Pairwise (fun a b => le a b = true) →
      (l.eraseRepsBy r).Pairwise (fun a b => r a b = false)
  | [], _ => List.Pairwise.nil
  | [a], _ => List.pairwise_singleton _ a
  | a :: b :: l, h => by
      obtain ⟨ha, hbl⟩ := List.pairwise_cons.mp h
      obtain ⟨hb, hl⟩ := List.pairwise_cons.mp hbl
      rw [eraseRepsBy_cons_cons]
      split
      · refine pairwise_eraseRepsBy between (List.pairwise_cons.mpr ⟨fun c hc => ?_, hl⟩)
        exact ha c (List.mem_cons_of_mem _ hc)
      · rename_i hab
        refine List.pairwise_cons.mpr ⟨fun c hc => ?_, pairwise_eraseRepsBy between hbl⟩
        rw [Bool.eq_false_iff]
        intro hac
        rcases List.mem_cons.mp (mem_of_mem_eraseRepsBy hc) with rfl | hcl
        · exact hab hac
        · exact hab (between a b c (ha b List.mem_cons_self) (hb c hcl) hac)

end Repetitions

/-! ## §3 Findings -/

namespace Finding

instance : Std.TransOrd Kind := inferInstanceAs (Std.TransCmp (compareOn Kind.rank))

instance : Std.TransCmp Finding.cmp :=
  inferInstanceAs (Std.TransCmp (compareLex (compareOn canonical)
    (compareLex (compareOn test) (compareOn kind))))

theorem cmp_trans (a b c : Finding) (hab : (a.cmp b).isLE) (hbc : (b.cmp c).isLE) :
    (a.cmp c).isLE :=
  Std.TransCmp.isLE_trans hab hbc

theorem cmp_total (a b : Finding) : (a.cmp b).isLE || (b.cmp a).isLE := by
  have hswap : b.cmp a = (a.cmp b).swap := Std.OrientedCmp.eq_swap
  rw [hswap]
  cases a.cmp b <;> rfl

theorem cmp_refl (a : Finding) : (a.cmp a).isLE := by
  rw [show a.cmp a = .eq from Std.ReflCmp.compare_self]
  rfl

theorem same_iff {a b : Finding} :
    a.same b = true ↔ a.kind = b.kind ∧ a.target = b.target ∧ a.test = b.test ∧
      a.file.map Path.components = b.file.map Path.components ∧ a.message = b.message := by
  simp [same, and_assoc]

theorem same_refl (a : Finding) : a.same a = true := by simp [same_iff]

theorem same_trans (a b c : Finding) (hab : a.same b = true) (hbc : b.same c = true) :
    a.same c = true := by
  rw [same_iff] at *
  simp [hab, hbc]

/-- Findings that say the same stand at the same place of the order. -/
theorem cmp_eq_of_same {a b : Finding} (h : a.same b = true) : a.cmp b = .eq := by
  obtain ⟨hkind, htarget, htest, -⟩ := same_iff.mp h
  have hcanonical : a.canonical = b.canonical := by simp [canonical, htarget]
  simp [cmp, compareLex, compareOn, hkind, hcanonical, htest, Std.ReflCmp.compare_self]

/-- Findings at the same place of the order are of the same kind. -/
theorem kind_eq_of_cmp_eq {a b : Finding} (h : a.cmp b = .eq) : a.kind = b.kind := by
  have hk : compareOn Kind.rank a.kind b.kind = .eq :=
    (compareLex_eq_eq.mp (compareLex_eq_eq.mp h).2).2
  have hrank : a.kind.rank = b.kind.rank := Std.LawfulEqCmp.eq_of_compare hk
  revert hrank
  cases a.kind <;> cases b.kind <;> simp [Kind.rank]

end Finding

/-! ## §4 Reports -/

/-- What holds of the findings at one place of the order or of none of them may be asked of a report
or of the list it is made from. -/
theorem filter_report (p : Finding → Bool) (hp : ∀ a b, a.cmp b = .eq → p a = p b)
    (findings : List Finding) :
    (report findings).filter p = report (findings.filter p) := by
  have hbetween : ∀ a b c : Finding, (a.cmp b).isLE = true → (b.cmp c).isLE = true →
      a.same c = true → p b = p a := by
    intro a b c hab hbc hac
    have hca : (c.cmp a).isLE = true := by
      have hswap : c.cmp a = (a.cmp c).swap := Std.OrientedCmp.eq_swap
      rw [hswap, Finding.cmp_eq_of_same hac]
      rfl
    exact (hp a b (Std.OrientedCmp.isLE_antisymm hab (Finding.cmp_trans b c a hbc hca))).symm
  rw [report, filter_eraseRepsBy (fun a b => (a.cmp b).isLE) p Finding.cmp_refl hbetween
      (List.pairwise_mergeSort Finding.cmp_trans Finding.cmp_total findings),
    filter_mergeSort Finding.cmp_trans Finding.cmp_total, ← report]

theorem mem_of_mem_report {findings : List Finding} {f : Finding} (h : f ∈ report findings) :
    f ∈ findings :=
  List.mem_mergeSort.mp (mem_of_mem_eraseRepsBy h)

/-- A report says everything that the list it is made from says. -/
theorem exists_mem_report {findings : List Finding} {f : Finding} (h : f ∈ findings) :
    ∃ g ∈ report findings, g.same f = true :=
  exists_mem_eraseRepsBy Finding.same_refl Finding.same_trans (List.mem_mergeSort.mpr h)

end Crosslink
