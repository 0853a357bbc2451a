import Crosslink.Proofs.Checked.Edits

/-!
# What a set of splices makes of a text

A set of splices is carried out in the order of their places, and only neighbours in that order are
held against each other. Here what comes out is told without that order: which characters of the
source stay, and which texts stand before each of them. Neighbours that do not clash stand one
behind the other, and so do all splices of the list, so that no two of them collide.

* §1 `Collide`, two splices that cannot both be carried out.
* §2 `spliced`, the text a set of splices asks for, offset by offset.
* §3 `weave_eq_spliced`, the text that comes out.
* §4 One splice at a time.

## Main statements

* `apply_exact`: when a set of splices is refused, and what comes out when it is not.
-/

namespace Crosslink.Splice

variable {source out : Text} {splices rest : List Splice} {a b s : Splice} {n : Nat}

/-! ## §1 Splices that collide -/

/-- Two spans of which not both can be replaced: they share a byte, or one is empty and stands
strictly inside the other. -/
def Collide (a b : Span) : Prop :=
  (∃ n, (a.start ≤ n ∧ n < a.stop) ∧ b.start ≤ n ∧ n < b.stop) ∨
    (a.start = a.stop ∧ b.start < a.start ∧ a.start < b.stop) ∨
    (b.start = b.stop ∧ a.start < b.start ∧ b.start < a.stop)

/-- The splices at two places of the list collide. -/
def Collides (splices : List Splice) : Prop :=
  ∃ (i j : Nat) (a b : Splice), i ≠ j ∧ splices[i]? = some a ∧ splices[j]? = some b ∧
    Collide a.span b.span

/-- Spans that do not collide are those of which one ends before the other begins. -/
theorem not_collide_iff (ha : a.span.start ≤ a.span.stop) (hb : b.span.start ≤ b.span.stop) :
    ¬ Collide a.span b.span ↔ Clear a b := by
  unfold Collide Clear
  constructor
  · intro h
    obtain ⟨hshared, hinside, hinside'⟩ := not_or.mp h |>.imp_right not_or.mp
    have hmax := not_exists.mp hshared (max a.span.start b.span.start)
    omega
  · rintro hclear (⟨n, hn⟩ | hn | hn) <;> omega

theorem not_collides_iff (h : ∀ s ∈ splices, s.span.start ≤ s.span.stop) :
    ¬ Collides splices ↔ splices.Pairwise Clear := by
  rw [List.pairwise_iff_getElem]
  constructor
  · intro hno i j hi hj hij
    refine (not_collide_iff (h _ (List.getElem_mem hi)) (h _ (List.getElem_mem hj))).mp fun hc => ?_
    exact hno ⟨i, j, _, _, by omega, List.getElem?_eq_getElem hi, List.getElem?_eq_getElem hj, hc⟩
  · rintro hclear ⟨i, j, a, b, hne, ha, hb, hcollide⟩
    obtain ⟨hi, rfl⟩ := List.getElem?_eq_some_iff.mp ha
    obtain ⟨hj, rfl⟩ := List.getElem?_eq_some_iff.mp hb
    refine (not_collide_iff (h _ (List.getElem_mem hi)) (h _ (List.getElem_mem hj))).mpr ?_ hcollide
    obtain hij | hji := Nat.lt_or_gt_of_ne hne
    · exact hclear i j hi hj hij
    · exact (hclear j i hj hi hji).symm

/-- Of splices in the order of their places of which no two neighbours clash, each ends before all
later ones begin. -/
theorem inOrder_of_firstClash (hle : ∀ s ∈ splices, s.span.start ≤ s.span.stop)
    (hsorted : splices.Pairwise fun a b => le a b = true) (h : firstClash splices = none) :
    splices.Pairwise fun a b => a.span.stop ≤ b.span.start := by
  induction splices with
  | nil => exact .nil
  | cons a rest ih =>
    obtain ⟨hab, hsorted⟩ := List.pairwise_cons.mp hsorted
    cases rest with
    | nil => exact List.pairwise_singleton _ _
    | cons b rest =>
      rw [firstClash] at h
      split at h
      · cases h
      · rename_i hclash
        have hb := hle b (by simp)
        have hnext := Checked.stop_le_of_not_clashes hb (hab b (by simp)) (by simpa using hclash)
        have hrest := ih (fun s hs => hle s (List.mem_cons_of_mem _ hs)) hsorted h
        refine List.pairwise_cons.mpr ⟨fun c hc => ?_, hrest⟩
        obtain rfl | hc := List.mem_cons.mp hc
        · exact hnext
        · have := (List.pairwise_cons.mp hrest).1 c hc
          omega

/-- Comparing neighbours finds every pair that collides. -/
theorem firstClash_ordered_eq_none_iff (h : ∀ s ∈ splices, s.span.start ≤ s.span.stop) :
    firstClash (ordered splices) = none ↔ ¬ Collides splices := by
  rw [not_collides_iff h]
  constructor
  · intro hclash
    refine clear_ordered.mp ?_
    exact (inOrder_of_firstClash (fun s hs => h s (mem_ordered.mp hs)) (ordered_sorted splices)
      hclash).imp Or.inl
  · exact fun hclear => firstClash_eq_none_of_clear (clear_ordered.mpr hclear)

/-! ## §2 The text that is asked for -/

/-- The splice drops the byte at an offset. -/
def drops (n : Nat) (s : Splice) : Bool := s.span.start ≤ n && n < s.span.stop

/-- The texts that are put in at an offset: those of the insertions there, then that of the splice
whose bytes begin there, each in the order of the list. -/
def textsAt (splices : List Splice) (n : Nat) : Text :=
  ((splices.filter fun s => s.span = Span.point n) ++
    splices.filter fun s => s.span.start = n && n < s.span.stop).flatMap text

/-- What the splices make of a text that stands from an offset on: before each character the texts
that are put in there, and the characters that no splice drops. -/
def spliced (splices : List Splice) (offset : Nat) : Text → Text
  | [] => textsAt splices offset
  | c :: cs =>
    textsAt splices offset ++ (if splices.any (drops offset) then [] else [c]) ++
      spliced splices (offset + c.utf8Size) cs

theorem spliced_nil_splices (offset : Nat) (t : Text) : spliced [] offset t = t := by
  induction t generalizing offset with
  | nil => rfl
  | cons c cs ih => simp [spliced, textsAt, ih]

theorem textsAt_cons (s : Splice) (rest : List Splice) (h : s.span = Span.point n) :
    textsAt (s :: rest) n = s.text ++ textsAt rest n := by
  have hstop : (decide (s.span.start = n) && decide (n < s.span.stop)) = false := by
    simp [h, Span.point]
  rw [textsAt, List.filter_cons_of_pos (by simpa using h), List.filter_cons_of_neg (by simp [hstop])]
  simp [textsAt]

theorem textsAt_cons_of_ne (s : Splice) (rest : List Splice) (h : s.span ≠ Span.point n)
    (h' : s.span.start = n → s.span.stop ≤ n) : textsAt (s :: rest) n = textsAt rest n := by
  have hstart : (decide (s.span.start = n) && decide (n < s.span.stop)) = false := by
    simpa using h'
  rw [textsAt, List.filter_cons_of_neg (by simpa using h), List.filter_cons_of_neg (by simp [hstart])]
  rfl

theorem textsAt_eq_nil (h : ∀ s ∈ splices, n < s.span.start) : textsAt splices n = [] := by
  have hpoint : (splices.filter fun s => s.span = Span.point n) = [] := by
    refine List.filter_eq_nil_iff.mpr fun s hs he => ?_
    have := h s hs
    rw [of_decide_eq_true he] at this
    exact Nat.lt_irrefl n this
  have hstart : (splices.filter fun s => s.span.start = n && n < s.span.stop) = [] := by
    refine List.filter_eq_nil_iff.mpr fun s hs he => ?_
    simp only [Bool.and_eq_true, decide_eq_true_eq] at he
    have := h s hs
    omega
  rw [textsAt, hpoint, hstart]
  rfl

theorem any_drops_eq_false (h : ∀ s ∈ splices, n < s.span.start) :
    splices.any (drops n) = false := by
  refine List.any_eq_false.mpr fun s hs => ?_
  have := h s hs
  simp only [drops, Bool.and_eq_true, decide_eq_true_eq, not_and]
  omega

/-- A splice that ends before an offset makes no difference from there on. -/
theorem spliced_cons_of_past (hs : s.span.start < n) (hstop : s.span.stop ≤ n) (t : Text) :
    spliced (s :: rest) n t = spliced rest n t := by
  have htexts : ∀ n, s.span.start < n → textsAt (s :: rest) n = textsAt rest n := by
    intro n hn
    refine textsAt_cons_of_ne s rest (fun he => ?_) (fun he => by omega)
    rw [he] at hn
    exact Nat.lt_irrefl n hn
  induction t generalizing n with
  | nil => exact htexts n hs
  | cons c cs ih =>
    have hdrops : drops n s = false := by
      simp only [drops, Bool.and_eq_false_iff, decide_eq_false_iff_not]
      omega
    rw [spliced, spliced, htexts n hs, List.any_cons, hdrops, Bool.false_or,
      ih (by omega) (by omega)]

/-- Characters that stand before all splices are kept. -/
theorem spliced_append_of_before {m : Text} (h : ∀ s ∈ splices, n + Text.width m ≤ s.span.start)
    (u : Text) : spliced splices n (m ++ u) = m ++ spliced splices (n + Text.width m) u := by
  induction m generalizing n with
  | nil => rfl
  | cons c cs ih =>
    have hpos := c.utf8Size_pos
    have hbefore : ∀ s ∈ splices, n < s.span.start := fun s hs => by
      have := h s hs
      rw [Text.width_cons] at this
      omega
    have hrest := ih (n := n + c.utf8Size) fun s hs => by
      have := h s hs
      rw [Text.width_cons] at this
      omega
    rw [List.cons_append, spliced, textsAt_eq_nil hbefore, any_drops_eq_false hbefore, hrest,
      Text.width_cons, Nat.add_assoc]
    rfl

/-- An insertion in front of all other splices puts its text there. -/
theorem spliced_cons_of_point (h : s.span = Span.point n) (t : Text) :
    spliced (s :: rest) n t = s.text ++ spliced rest n t := by
  cases t with
  | nil => exact textsAt_cons s rest h
  | cons c cs =>
    have hpos := c.utf8Size_pos
    have hdrops : drops n s = false := by
      simp only [drops, h, Span.point, Bool.and_eq_false_iff, decide_eq_false_iff_not]
      omega
    rw [spliced, spliced, textsAt_cons s rest h, List.any_cons, hdrops, Bool.false_or,
      spliced_cons_of_past (by rw [h]; simp only [Span.point]; omega)
        (by rw [h]; simp only [Span.point]; omega)]
    simp

/-- Characters that a splice drops, past its first byte, leave nothing. -/
theorem spliced_dropped {d : Text} (hstart : s.span.start < n)
    (hrest : ∀ b ∈ rest, n + Text.width d ≤ b.span.start) (hstop : s.span.stop = n + Text.width d)
    (u : Text) : spliced (s :: rest) n (d ++ u) = spliced rest (n + Text.width d) u := by
  induction d generalizing n with
  | nil => exact spliced_cons_of_past hstart (by rw [hstop]; exact Nat.le_refl _) u
  | cons c cs ih =>
    have hpos := c.utf8Size_pos
    rw [Text.width_cons] at hstop hrest
    have hbefore : ∀ b ∈ rest, n < b.span.start := fun b hb => by
      have := hrest b hb
      omega
    have hdrops : drops n s = true := by
      simp only [drops, Bool.and_eq_true, decide_eq_true_eq]
      omega
    have htexts : textsAt (s :: rest) n = [] := by
      rw [textsAt_cons_of_ne s rest (fun he => ?_) (fun he => by omega), textsAt_eq_nil hbefore]
      rw [he] at hstart
      exact Nat.lt_irrefl n hstart
    have hlater := ih (n := n + c.utf8Size) (by omega)
      (fun b hb => by have := hrest b hb; omega) (by omega)
    rw [List.cons_append, spliced, htexts, List.any_cons, hdrops, Bool.true_or, if_pos rfl, hlater,
      Text.width_cons, Nat.add_assoc]
    rfl

/-- A splice in front of all others puts its text in the place of its bytes. -/
theorem spliced_cons {d : Text} (hstart : s.span.start = n) (hstop : s.span.stop = n + Text.width d)
    (hrest : ∀ b ∈ rest, s.span.stop ≤ b.span.start) (u : Text) :
    spliced (s :: rest) n (d ++ u) = s.text ++ spliced rest (n + Text.width d) u := by
  cases d with
  | nil =>
    refine spliced_cons_of_point ?_ u
    rw [show s.span = ⟨s.span.start, s.span.stop⟩ from rfl, hstart, hstop]
    rfl
  | cons c cs =>
    have hpos := c.utf8Size_pos
    rw [Text.width_cons] at hstop ⊢
    have hbefore : ∀ b ∈ rest, n < b.span.start := fun b hb => by
      have := hrest b hb
      omega
    have hpoint : s.span ≠ Span.point n := fun he => by
      rw [he] at hstop
      simp only [Span.point] at hstop
      omega
    have hlt : n < s.span.stop := by omega
    have htexts : textsAt (s :: rest) n = s.text := by
      have hnone := textsAt_eq_nil hbefore
      simp only [textsAt, List.flatMap_append, List.append_eq_nil_iff] at hnone
      rw [textsAt, List.filter_cons_of_neg (by simpa using hpoint),
        List.filter_cons_of_pos (by simp [hstart, hlt])]
      simp [hnone.1, hnone.2]
    have hdrops : drops n s = true := by
      simp only [drops, Bool.and_eq_true, decide_eq_true_eq]
      omega
    have hnext : s.span.start < n + c.utf8Size := by omega
    have hlater := spliced_dropped hnext
      (fun b hb => show n + c.utf8Size + Text.width cs ≤ b.span.start by have := hrest b hb; omega)
      (by rw [hstop, Nat.add_assoc]) u
    rw [List.cons_append, spliced, htexts, List.any_cons, hdrops, Bool.true_or, if_pos rfl, hlater,
      Nat.add_assoc, List.append_nil]

/-! ## §3 The text that comes out -/

/-- Splices one behind the other, carried out on what comes after `x`, make the text asked for. -/
theorem weave_eq_spliced {x t : Text} (hsource : source = x ++ t)
    (hfits : ∀ s ∈ splices, s.span.Fits source)
    (horder : splices.Pairwise fun a b => a.span.stop ≤ b.span.start)
    (hx : ∀ s ∈ splices, Text.width x ≤ s.span.start) :
    weave source (Text.width x) splices = spliced splices (Text.width x) t := by
  induction splices generalizing x t with
  | nil => rw [weave, hsource, Text.after_width, spliced_nil_splices]
  | cons s rest ih =>
    obtain ⟨hfirst, horder⟩ := List.pairwise_cons.mp horder
    have hs := hx s (by simp)
    obtain ⟨y, d, u, hparts, hstart, hstop⟩ := (hfits s (by simp)).exists_parts
    -- what stands between the cursor and the splice
    obtain ⟨m, rfl, rfl⟩ : ∃ m, y = x ++ m ∧ t = m ++ (d ++ u) := by
      rw [hsource] at hparts
      obtain ⟨m, rfl, hm⟩ | ⟨m, rfl, hm⟩ := List.append_eq_append_iff.mp hparts
      · exact ⟨m, rfl, hm⟩
      · obtain rfl : m = [] := by
          cases m with
          | nil => rfl
          | cons c cs =>
            have := c.utf8Size_pos
            rw [hstart, Text.width_append, Text.width_cons] at hs
            omega
        exact ⟨[], by simp, by simpa using hm.symm⟩
    rw [Text.width_append] at hstart hstop
    have hsource' : source = (x ++ m ++ d) ++ u := by rw [hsource]; simp
    have hlater := ih hsource' (fun b hb => hfits b (List.mem_cons_of_mem _ hb)) horder
      fun b hb => by
        have := hfirst b hb
        rw [hstop] at this
        simpa [Nat.add_assoc] using this
    simp only [Text.width_append] at hlater
    have hkept : Text.slice (Text.width x) s.span.start source = m := by
      rw [hsource, hstart]
      exact Text.slice_middle x m (d ++ u)
    rw [weave, hkept, hstop, hlater, spliced_append_of_before, spliced_cons hstart hstop]
    · rw [List.append_assoc]
    · exact fun b hb => hfirst b hb
    · intro b hb
      obtain rfl | hb := List.mem_cons.mp hb
      · rw [hstart]
      · have := hfirst b hb
        omega

/-- Splices with one span keep their order when they are put in the order of their places. -/
theorem filter_ordered_of_span (p : Splice → Bool) {span : Span}
    (h : ∀ s ∈ splices, p s = true → s.span = span) :
    (ordered splices).filter p = splices.filter p := by
  have hsorted : (splices.filter p).Pairwise fun a b => le a b = true := by
    refine List.pairwise_of_forall_mem_list fun a ha b hb => ?_
    obtain ⟨ha, hpa⟩ := List.mem_filter.mp ha
    obtain ⟨hb, hpb⟩ := List.mem_filter.mp hb
    simp [le, h a ha hpa, h b hb hpb]
  have hsub : (splices.filter p).Sublist ((ordered splices).filter p) := by
    have := (List.sublist_mergeSort le_trans le_total hsorted List.filter_sublist).filter p
    simp only [List.filter_filter, Bool.and_self] at this
    exact this
  refine (hsub.eq_of_length ?_).symm
  exact ((List.mergeSort_perm splices le).filter p).length_eq.symm

/-- At each offset splices that are given in another order put in the same texts, if those that are
inserted there keep their order. -/
theorem textsAt_perm {splices' : List Splice} (hclear : splices.Pairwise Clear) (hperm : splices'.Perm splices)
    (hpoint : splices'.filter (fun s => s.span = Span.point n) = splices.filter fun s => s.span = Span.point n) :
    textsAt splices' n = textsAt splices n := by
  -- two splices that take the byte at one offset would collide
  have hstart : splices'.filter (fun s => s.span.start = n && n < s.span.stop) =
      splices.filter fun s => s.span.start = n && n < s.span.stop := by
    have hperm := hperm.filter fun s => s.span.start = n && n < s.span.stop
    have hclear' := hclear.filter fun s => s.span.start = n && n < s.span.stop
    have hmem : ∀ s ∈ splices.filter fun s => s.span.start = n && n < s.span.stop,
        s.span.start = n ∧ n < s.span.stop := fun s hs => by
      simpa using (List.mem_filter.mp hs).2
    generalize splices.filter (fun s => s.span.start = n && n < s.span.stop) = l at *
    match l with
    | [] => exact List.perm_nil.mp hperm
    | [s] => exact List.perm_singleton.mp hperm
    | a :: b :: rest =>
      have hab := (List.pairwise_cons.mp hclear').1 b (by simp)
      have ha := hmem a (by simp)
      have hb := hmem b (by simp)
      unfold Clear at hab
      omega
  rw [textsAt, textsAt, hpoint, hstart]

theorem spliced_perm {splices' : List Splice} (hclear : splices.Pairwise Clear) (hperm : splices'.Perm splices)
    (hpoint : ∀ n, splices'.filter (fun s => s.span = Span.point n) =
      splices.filter fun s => s.span = Span.point n) (n : Nat) (t : Text) :
    spliced splices' n t = spliced splices n t := by
  have hany : ∀ n, splices'.any (drops n) = splices.any (drops n) := fun n => by
    rw [Bool.eq_iff_iff, List.any_eq_true, List.any_eq_true]
    simp only [hperm.mem_iff]
  induction t generalizing n with
  | nil => exact textsAt_perm hclear hperm (hpoint n)
  | cons c cs ih => rw [spliced, spliced, textsAt_perm hclear hperm (hpoint n), hany, ih]

theorem spliced_ordered (hclear : splices.Pairwise Clear) (n : Nat) (t : Text) :
    spliced (ordered splices) n t = spliced splices n t :=
  spliced_perm hclear (List.mergeSort_perm splices le) (fun _ => filter_ordered_of_span _ fun _ _ hs =>
    of_decide_eq_true hs) n t

theorem fits_iff (h : s.span.start ≤ s.span.stop) : fits source s = true ↔ s.span.Fits source := by
  refine ⟨fun hs => ?_, fits_eq_true⟩
  simp only [fits, Bool.and_eq_true] at hs
  exact ⟨h, hs.1.2, hs.2⟩

theorem apply_eq_spliced (hfits : ∀ s ∈ splices, s.span.Fits source) (h : ¬ Collides splices) :
    apply source splices = .ok (spliced splices 0 source) := by
  have hle : ∀ s ∈ splices, s.span.start ≤ s.span.stop := fun s hs => (hfits s hs).le
  have hfits' : ∀ s ∈ ordered splices, s.span.Fits source := fun s hs => hfits s (mem_ordered.mp hs)
  have hclash := (firstClash_ordered_eq_none_iff hle).mpr h
  have horder := inOrder_of_firstClash (fun s hs => (hfits' s hs).le) (ordered_sorted splices) hclash
  have hweave := weave_eq_spliced (x := []) (t := source) rfl hfits' horder fun _ _ => Nat.zero_le _
  rw [Text.width_nil, spliced_ordered ((not_collides_iff hle).mp h)] at hweave
  rw [apply, find?_fits hfits, hclash, ← hweave]
  rfl

/-- Splices that have been carried out make the text that is asked for. -/
theorem eq_spliced_of_apply (hfits : ∀ s ∈ splices, s.span.Fits source)
    (h : apply source splices = .ok out) : out = spliced splices 0 source := by
  by_cases hcollides : Collides splices
  · have hclash := (firstClash_ordered_eq_none_iff fun s hs => (hfits s hs).le).not.mpr
      (not_not.mpr hcollides)
    obtain ⟨⟨a, b⟩, hclash⟩ := Option.ne_none_iff_exists'.mp hclash
    rw [apply, find?_fits hfits, hclash] at h
    cases h
  · rw [apply_eq_spliced hfits hcollides] at h
    exact (Except.ok.inj h).symm

/-- From where all splices have ended the text is kept, behind what is put in there. -/
theorem spliced_of_ended (h : ∀ s ∈ splices, s.span.start ≤ s.span.stop ∧ s.span.stop ≤ n) (t : Text) :
    spliced splices n t = textsAt splices n ++ t := by
  have hpast : ∀ {k : Nat}, n < k → ∀ t, spliced splices k t = t := fun {k} hk t => by
    clear * - h hk
    induction splices with
    | nil => exact spliced_nil_splices k t
    | cons s rest ih =>
      have hs := h s List.mem_cons_self
      rw [spliced_cons_of_past (by omega) (by omega), ih fun b hb => h b (List.mem_cons_of_mem _ hb)]
  cases t with
  | nil => exact (List.append_nil _).symm
  | cons c cs =>
    have hpos := c.utf8Size_pos
    have hdrops : splices.any (drops n) = false := List.any_eq_false.mpr fun s hs => by
      have := h s hs
      simp only [drops, Bool.and_eq_true, decide_eq_true_eq, not_and]
      omega
    rw [spliced, hdrops, hpast (by omega), List.append_assoc]
    rfl

/-- What stands behind all splices is kept. -/
theorem exists_spliced_append {m : Text}
    (h : ∀ s ∈ splices, s.span.start ≤ s.span.stop ∧ s.span.stop ≤ n + Text.width m) (y : Text) :
    ∃ m', spliced splices n (m ++ y) = m' ++ y := by
  induction m generalizing n with
  | nil => exact ⟨_, spliced_of_ended h y⟩
  | cons c cs ih =>
    obtain ⟨m', hm'⟩ := ih (n := n + c.utf8Size) fun s hs => by
      have := h s hs
      rw [Text.width_cons] at this
      omega
    rw [List.cons_append, spliced, hm']
    exact ⟨_, (List.append_assoc ..).symm⟩

/-! ## §4 One splice at a time -/

theorem apply_singleton (hs : s.span.Fits source) : apply source [s] = .ok (weave source 0 [s]) := by
  have hordered : ordered [s] = [s] := List.mergeSort_singleton s
  have hfind : [s].find? (fun s => !fits source s) = none := by simp [fits_eq_true hs]
  rw [apply, hordered, hfind]
  rfl

theorem isBoundary_of_append {x y : Text} (h : Text.isBoundary n (x ++ y) = true)
    (hn : n ≤ Text.width x) : Text.isBoundary n x = true := by
  obtain ⟨u, v, huv, rfl⟩ := Text.isBoundary_iff.mp h
  obtain ⟨m, rfl, -⟩ | ⟨m, rfl, -⟩ := List.append_eq_append_iff.mp huv
  · obtain rfl : m = [] := by
      cases m with
      | nil => rfl
      | cons c cs =>
        have := c.utf8Size_pos
        rw [Text.width_append, Text.width_cons] at hn
        omega
    rw [List.append_nil]
    exact Text.isBoundary_iff.mpr ⟨x, [], by simp, rfl⟩
  · exact Text.isBoundary_width u m

/-- Splices one behind the other can be carried out each by itself, the last one first. -/
theorem foldlM_reverse (hfits : ∀ s ∈ splices, s.span.Fits source)
    (horder : splices.Pairwise fun a b => a.span.stop ≤ b.span.start) :
    splices.reverse.foldlM (fun t s => apply t [s]) source = .ok (weave source 0 splices) := by
  induction h : splices.reverse generalizing splices source with
  | nil =>
    obtain rfl : splices = [] := List.reverse_eq_nil_iff.mp h
    rw [weave, Text.after_zero]
    rfl
  | cons s before ih =>
    obtain rfl : splices = before.reverse ++ [s] := by
      rw [← List.reverse_reverse splices, h, List.reverse_cons]
    obtain ⟨horder, -, hlast⟩ := List.pairwise_append.mp horder
    have hs := hfits s (by simp)
    obtain ⟨x, m, y, rfl, hstart, hstop⟩ := hs.exists_parts
    -- those before it end where it starts or earlier, and it leaves what stands there alone
    have hwithin : ∀ b ∈ before.reverse, b.span.start ≤ b.span.stop ∧
        b.span.stop ≤ Text.width x := fun b hb => by
      have hb' := hfits b (List.mem_append_left _ hb)
      have := hlast b hb s (by simp)
      exact ⟨hb'.le, by omega⟩
    have hleft : ∀ b ∈ before.reverse, Text.isBoundary b.span.start x = true ∧
        Text.isBoundary b.span.stop x = true := fun b hb => by
      have hb' := hfits b (List.mem_append_left _ hb)
      have := hwithin b hb
      exact ⟨isBoundary_of_append hb'.start (by omega), isBoundary_of_append hb'.stop (by omega)⟩
    have hextend : ∀ {n : Nat} (z : Text), Text.isBoundary n x = true →
        Text.isBoundary n (x ++ z) = true := fun {n} z hn => by
      obtain ⟨u, v, rfl, rfl⟩ := Text.isBoundary_iff.mp hn
      rw [List.append_assoc]
      exact Text.isBoundary_width u (v ++ z)
    have hzero : Text.isBoundary 0 x = true := by cases x <;> rfl
    have hone : weave (x ++ (m ++ y)) 0 ([] ++ [s]) = x ++ (s.text ++ y) := by
      rw [weave_concat hstart hstop hzero (by simp) (by simp), weave, Text.after_zero]
    have hrest : before.foldlM (fun t s => apply t [s]) (x ++ (s.text ++ y)) =
        .ok (weave (x ++ (s.text ++ y)) 0 before.reverse) :=
      ih (fun b hb => ⟨(hwithin b hb).1, hextend _ (hleft b hb).1, hextend _ (hleft b hb).2⟩) horder
        (List.reverse_reverse before)
    have hweave : weave (x ++ (m ++ y)) 0 (before.reverse ++ [s]) =
        weave (x ++ (s.text ++ y)) 0 before.reverse :=
      weave_concat hstart hstop hzero (fun b hb => (hleft b hb).2) (fun b hb => (hwithin b hb).1)
    rw [List.nil_append] at hone
    rw [List.foldlM_cons, apply_singleton hs, hone, hweave]
    exact hrest

/-- Of splices that stand in order the last ones can be carried out together, and then the others each by
itself, the last one first. -/
theorem Rowed.apply_append {start stop : Nat} (h : Rowed source start stop (splices ++ rest)) :
    apply source (splices ++ rest) =
      apply source rest >>= fun t => splices.reverse.foldlM (fun t s => apply t [s]) t := by
  have hrest : Rowed source start stop rest := ⟨fun s hs => h.fits s (List.mem_append_right _ hs),
    fun s hs => h.within s (List.mem_append_right _ hs), (List.pairwise_append.mp h.order).2.1⟩
  rw [h.apply_eq, hrest.apply_eq, ← foldlM_reverse h.fits h.order, ← foldlM_reverse hrest.fits hrest.order,
    List.reverse_append, List.foldlM_append]

/-! ## §5 Splices in another order -/

/-- Splices that are apart can be given in any order in which those that are inserted at one offset keep
theirs. -/
theorem Apart.apply_perm {splices' : List Splice} (h : Apart source splices) (hperm : splices'.Perm splices)
    (hpoint : ∀ n, splices'.filter (fun s => s.span = Span.point n) =
      splices.filter fun s => s.span = Span.point n) : apply source splices' = apply source splices := by
  have hfits : ∀ s ∈ splices', s.span.Fits source := fun s hs => h.fits s (hperm.mem_iff.mp hs)
  rw [apply_eq_spliced hfits ((not_collides_iff fun s hs => (hfits s hs).le).mpr
      ((hperm.pairwise_iff Clear.symm).mpr h.clear)),
    apply_eq_spliced h.fits ((not_collides_iff fun s hs => (h.fits s hs).le).mpr h.clear),
    spliced_perm h.clear hperm hpoint]

/-- Splices no two of which have the same span come into one order, however they are given. -/
theorem ordered_eq_of_perm {splices' : List Splice} (hperm : splices'.Perm splices)
    (hne : splices.Pairwise fun a b => a.span ≠ b.span) : ordered splices' = ordered splices := by
  refine List.Perm.eq_of_pairwise ?_ (ordered_sorted splices') (ordered_sorted splices) ?_
  · intro a b ha hb hab hba
    have hspan : a.span = b.span := by
      have hstart : a.span.start = b.span.start ∧ a.span.stop = b.span.stop := by
        simp only [le, Bool.or_eq_true, Bool.and_eq_true, decide_eq_true_eq] at hab hba
        omega
      exact Span.mk.injEq .. ▸ hstart
    have hsymm : Std.Symm fun a b : Splice => a.span ≠ b.span := ⟨fun _ _ h => Ne.symm h⟩
    by_contra hab
    exact hne.forall (hperm.mem_iff.mp (mem_ordered.mp ha)) (mem_ordered.mp hb) hab hspan
  · exact ((List.mergeSort_perm splices' le).trans hperm).trans (List.mergeSort_perm splices le).symm

/-! ## §6 The whole of it -/

/-- The splices of a list whose spans are the right way round are refused as out of bounds exactly
when one of them does not stand between two characters of the source, and if all do, as overlapping
exactly when two of them collide. If none of this is so, they make the text that is asked for, with
every part of the source that is copied cut out of it between two characters; so does carrying them
out one by one from the last place to the first. Splices with different spans may be given in any
order. -/
theorem apply_exact (source : Text) (splices : List Splice)
    (h : ∀ s ∈ splices, s.span.start ≤ s.span.stop) :
    ((∃ span length, apply source splices = .error (.outOfBounds span length)) ↔
      ∃ s ∈ splices, Text.width source < s.span.stop ∨
        Text.isBoundary s.span.start source = false ∨ Text.isBoundary s.span.stop source = false) ∧
    ((∃ a b, apply source splices = .error (.overlap a b)) ↔
      (∀ s ∈ splices, s.span.Fits source) ∧ Collides splices) ∧
    ((∀ s ∈ splices, s.span.Fits source) → ¬ Collides splices →
      Checked.apply source splices = some (.ok (spliced splices 0 source)) ∧
      apply source splices = .ok (spliced splices 0 source) ∧
      (ordered splices).reverse.foldlM (fun t s => apply t [s]) source =
        .ok (spliced splices 0 source)) ∧
    (splices.Pairwise (fun a b => a.span ≠ b.span) → ∀ splices', splices'.Perm splices →
      apply source splices' = apply source splices) := by
  have hout : (∃ s ∈ splices, Text.width source < s.span.stop ∨
      Text.isBoundary s.span.start source = false ∨ Text.isBoundary s.span.stop source = false) ↔
      ¬ ∀ s ∈ splices, s.span.Fits source := by
    have hone : ∀ s ∈ splices, (Text.width source < s.span.stop ∨
        Text.isBoundary s.span.start source = false ∨
        Text.isBoundary s.span.stop source = false) ↔ ¬ s.span.Fits source := fun s hs => by
      rw [← fits_iff (h s hs), fits]
      simp only [Bool.and_eq_true, decide_eq_true_eq, not_and_or, Bool.not_eq_true, Nat.not_le]
      tauto
    simp only [not_forall]
    constructor
    · rintro ⟨s, hs, hs'⟩
      exact ⟨s, hs, (hone s hs).mp hs'⟩
    · rintro ⟨s, hs, hs'⟩
      exact ⟨s, hs, (hone s hs).mpr hs'⟩
  have hfind : (∀ s ∈ splices, s.span.Fits source) ↔
      (ordered splices).find? (fun s => !fits source s) = none := by
    refine ⟨find?_fits, fun hnone s hs => ?_⟩
    have := List.find?_eq_none.mp hnone s (mem_ordered.mpr hs)
    exact (fits_iff (h s hs)).mp (by simpa using this)
  have hclash := firstClash_ordered_eq_none_iff h
  refine ⟨?_, ?_, fun hfits hno => ?_, fun hne splices' hperm => ?_⟩
  · rw [hout, hfind, apply]
    cases (ordered splices).find? (fun s => !fits source s) with
    | some s => simp
    | none => cases firstClash (ordered splices) <;> simp
  · rw [hfind, ← not_not (a := Collides splices), ← hclash, apply]
    cases (ordered splices).find? (fun s => !fits source s) with
    | some s => simp
    | none => cases firstClash (ordered splices) <;> simp
  · have hok := apply_eq_spliced hfits hno
    refine ⟨by rw [Checked.apply_eq source h, hok], hok, ?_⟩
    have hfits' : ∀ s ∈ ordered splices, s.span.Fits source :=
      fun s hs => hfits s (mem_ordered.mp hs)
    rw [foldlM_reverse hfits' (inOrder_of_firstClash (fun s hs => (hfits' s hs).le)
      (ordered_sorted splices) (hclash.mpr hno)), ← hok, apply, find?_fits hfits, hclash.mpr hno]
  · rw [apply, apply, ordered_eq_of_perm hperm hne]

/-- A replacement, an insertion and a deletion, given out of order, and in another order. -/
theorem apply_exact_sample :
    apply "let x = 1;" [.replace ⟨8, 9⟩ "2", .insert 0 "// hi\n", .delete ⟨9, 10⟩] =
        .ok "// hi\nlet x = 2" ∧
      apply "let x = 1;" [.delete ⟨9, 10⟩, .replace ⟨8, 9⟩ "2", .insert 0 "// hi\n"] =
        .ok "// hi\nlet x = 2" := by
  have h := apply_exact "let x = 1;" [.replace ⟨8, 9⟩ "2", .insert 0 "// hi\n", .delete ⟨9, 10⟩]
    (by decide)
  have hfits : ∀ s ∈ ([.replace ⟨8, 9⟩ "2", .insert 0 "// hi\n", .delete ⟨9, 10⟩] : List Splice),
      s.span.Fits "let x = 1;" := fun s hs => (fits_iff (by revert s; decide)).mp (by revert s; decide)
  have hno : ¬ Collides [.replace ⟨8, 9⟩ "2", .insert 0 "// hi\n", .delete ⟨9, 10⟩] :=
    (not_collides_iff (by decide)).mpr (by simp [Clear, span, Span.point])
  have hout := (h.2.2.1 hfits hno).2.1
  exact ⟨hout, (h.2.2.2 (by decide) _ (by decide)).trans hout⟩

end Crosslink.Splice
