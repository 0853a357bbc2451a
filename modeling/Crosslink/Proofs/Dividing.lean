import Mathlib.Algebra.BigOperators.Intervals
import Crosslink.Proofs.Blocks
import Crosslink.Proofs.Places

/-!
# How arguments divide a list

A comma ends an argument when no bracket inside the list is open there. How many are open is a count of
the brackets before it, while the walk over a list jumps from each bracket to its partner. The two agree
because the brackets of a source nest: what stands between two partners comes to nothing, and never to
less than nothing on the way.

* §1 `depth`, the number of brackets open at a token, and `climb`, the count over a range of tokens.
* §2 `Closed`, a range that no bracket leaves, and what the count over it comes to.
* §3 The slots of a list against the depth.
* §4 `arguments_divide`, from slots to spans.
-/

namespace Crosslink.Source

namespace TokenSequence

variable {l : TokenSequence} {o c i j x : Nat} {t u : Token}

/-! ## §1 Depth -/

/-- What a token adds to the number of open brackets. -/
def step (l : TokenSequence) (i : Nat) : Int :=
  match l.kindAt i with
  | some kind => if kind.opens then 1 else if kind.closes.isSome then -1 else 0
  | none => 0

/-- What the tokens from `i` on before `j` add to the number of open brackets. -/
def climb (l : TokenSequence) (i j : Nat) : Int := ∑ k ∈ Finset.Ico i j, l.step k

/-- The number of brackets that are open at the token `x` and opened after the token `o`. -/
def depth (l : TokenSequence) (o x : Nat) : Int := l.climb (o + 1) x

theorem climb_self (l : TokenSequence) (i : Nat) : l.climb i i = 0 := by
  rw [climb, Finset.Ico_self, Finset.sum_empty]

theorem climb_add (l : TokenSequence) (hij : i ≤ j) (hjx : j ≤ x) :
    l.climb i x = l.climb i j + l.climb j x :=
  (Finset.sum_Ico_consecutive l.step hij hjx).symm

theorem climb_succ (l : TokenSequence) (i : Nat) : l.climb i (i + 1) = l.step i := by
  rw [climb, Nat.Ico_succ_singleton, Finset.sum_singleton]

theorem step_of_partner_none (hn : l.Nested) (h : l.partnerAt i = none) : l.step i = 0 := by
  unfold step kindAt
  cases ht : l.tokens[i]? with
  | none => rfl
  | some t =>
    have hnone : ¬(t.kind.opens = true ∨ t.kind.closes ≠ none) := fun hbracket => by
      obtain ⟨j, hj⟩ := hn.partnered i t ht hbracket
      rw [partnerAt_eq_some.mpr ⟨t, ht, hj⟩] at h
      cases h
    obtain ⟨hopens, hcloses⟩ := not_or.mp hnone
    simp [hopens, Classical.not_not.mp hcloses]

theorem step_of_partner (hn : l.Nested) (h : l.partnerAt o = some c) (hoc : o < c) :
    l.step o = 1 ∧ l.step c = -1 := by
  obtain ⟨k, k', hk, hk', hopens, hcloses, openers, hclosers, -⟩ := hn.kinds_of_partner h hoc
  simp [step, hk, hk', hopens, hcloses, hclosers]

/-! ## §2 Closed ranges -/

/-- The brackets from `i` on before `j` have their partners there. -/
def Closed (l : TokenSequence) (i j : Nat) : Prop :=
  ∀ k q, i ≤ k → k < j → l.partnerAt k = some q → i ≤ q ∧ q < j

theorem Nested.closed (hn : l.Nested) (h : l.partnerAt o = some c) : l.Closed (o + 1) c :=
  fun _ _ hk hkc hq => hn.between h hk hkc hq

/-- What a closed range begins with is no bracket, or one whose partner it holds. -/
theorem Closed.head (hn : l.Nested) (h : l.Closed i j) (hij : i < j) :
    l.lastOf i = i ∧ l.partnerAt i = none ∨
      l.partnerAt i = some (l.lastOf i) ∧ i < l.lastOf i ∧ l.lastOf i < j := by
  cases hq : l.partnerAt i with
  | none => exact .inl ⟨by rw [lastOf, hq], rfl⟩
  | some q =>
    have hin := h i q (Nat.le_refl i) hij hq
    have hlt : i < q := Nat.lt_of_le_of_ne hin.1 (hn.ne_partner hq)
    have hlast : l.lastOf i = q := Inserted.lastOf_eq_partner hq hlt
    exact .inr ⟨by rw [hlast], hlast ▸ hlt, hlast ▸ hin.2⟩

theorem Closed.lastOf_lt (hn : l.Nested) (h : l.Closed i j) (hij : i < j) : l.lastOf i < j := by
  obtain ⟨hlast, -⟩ | ⟨-, -, hlt⟩ := h.head hn hij
  · omega
  · exact hlt

/-- Behind what it begins with, a closed range is closed. -/
theorem Closed.tail (hn : l.Nested) (h : l.Closed i j) (hij : i < j) :
    l.Closed (l.lastOf i + 1) j := by
  intro k q hk hkj hq
  have hle := l.le_lastOf i
  obtain ⟨hiq, hqj⟩ := h k q (by omega) hkj hq
  refine ⟨Nat.lt_of_not_le fun hqi => ?_, hqj⟩
  have hback := hn.partnerAt_comm hq
  obtain ⟨hlast, hnone⟩ | ⟨hpartner, hlt, -⟩ := h.head hn hij
  · obtain rfl : q = i := by omega
    rw [hnone] at hback
    cases hback
  · obtain rfl | hne := Nat.eq_or_lt_of_le hiq
    · rw [hpartner] at hback
      have := Option.some.inj hback
      omega
    · obtain rfl | hne' := Nat.eq_or_lt_of_le hqi
      · rw [hn.partnerAt_comm hpartner] at hback
        have := Option.some.inj hback
        omega
      · have := (hn.between hpartner hne hne' hback).2
        omega

/-- The tokens of a range come to nothing, and never to less than nothing on the way. -/
structure Level (l : TokenSequence) (i j : Nat) : Prop where
  total : l.climb i j = 0
  nonneg : ∀ x, i ≤ x → x ≤ j → 0 ≤ l.climb i x

theorem Level.trans {m : Nat} (h : l.Level i j) (h' : l.Level j m) (hij : i ≤ j) (hjm : j ≤ m) :
    l.Level i m := by
  refine ⟨by rw [climb_add l hij hjm, h.total, h'.total, Int.add_zero], fun x hx hxm => ?_⟩
  obtain hxj | hjx := Nat.le_total x j
  · exact h.nonneg x hx hxj
  · rw [climb_add l hij hjx, h.total, Int.zero_add]
    exact h'.nonneg x hjx hxm

theorem Level.of_step (h : l.step i = 0) : l.Level i (i + 1) := by
  refine ⟨by rw [climb_succ, h], fun x hx hx' => ?_⟩
  obtain rfl | rfl : x = i ∨ x = i + 1 := by omega
  · exact (l.climb_self x).ge
  · rw [climb_succ, h]

/-- Right behind an opening bracket and up to its partner, one bracket more is open. -/
theorem Level.climb_opener (hn : l.Nested) (h : l.Level (o + 1) c) (hc : l.partnerAt o = some c)
    (hoc : o < c) (hx : o < x) (hxc : x ≤ c) : 1 ≤ l.climb o x := by
  have hinner := h.nonneg x hx hxc
  rw [climb_add l (Nat.le_add_right o 1) hx, climb_succ, (step_of_partner hn hc hoc).1]
  omega

theorem Level.pair (hn : l.Nested) (h : l.Level (o + 1) c) (hc : l.partnerAt o = some c)
    (hoc : o < c) : l.Level o (c + 1) := by
  have htotal : l.climb o (c + 1) = 0 := by
    rw [climb_add l (Nat.le_add_right o 1) (Nat.le_succ_of_le hoc), climb_add l hoc (Nat.le_succ c),
      climb_succ, climb_succ, h.total, (step_of_partner hn hc hoc).1, (step_of_partner hn hc hoc).2]
    rfl
  refine ⟨htotal, fun x hx hxc => ?_⟩
  obtain rfl | hlt := Nat.eq_or_lt_of_le hx
  · exact (l.climb_self o).ge
  · obtain rfl | hle := Nat.eq_or_lt_of_le hxc
    · exact htotal.ge
    · have := h.climb_opener hn hc hoc hlt (Nat.le_of_lt_succ hle)
      omega

theorem Closed.level_item (hn : l.Nested) (h : l.Closed i j) (hij : i < j)
    (hinner : i < l.lastOf i → l.Level (i + 1) (l.lastOf i)) : l.Level i (l.lastOf i + 1) := by
  obtain ⟨hself, hnone⟩ | ⟨hpartner, hi, -⟩ := h.head hn hij
  · rw [hself]
    exact .of_step (step_of_partner_none hn hnone)
  · exact (hinner hi).pair hn hpartner hi

/-- The brackets of a closed range come to nothing. -/
theorem Closed.level (hn : l.Nested) (h : l.Closed i j) (hij : i ≤ j) : l.Level i j := by
  -- by induction on the number of tokens: inside what the range begins with, and behind it
  induction hd : j - i using Nat.strong_induction_on generalizing i j with
  | _ d ih =>
    subst hd
    obtain rfl | hlt := Nat.eq_or_lt_of_le hij
    · refine ⟨l.climb_self i, fun x hx hx' => ?_⟩
      obtain rfl : i = x := by omega
      exact (l.climb_self i).ge
    · have hle := l.le_lastOf i
      have hlast := h.lastOf_lt hn hlt
      have hitem := h.level_item hn hlt fun hi =>
        ih _ (by omega) (hn.closed (Inserted.partnerAt_of_lt_lastOf hi)) hi rfl
      exact hitem.trans (ih _ (by omega) (h.tail hn hlt) hlast rfl) (by omega) hlast

theorem level_inside (hn : l.Nested) (hi : i < l.lastOf i) : l.Level (i + 1) (l.lastOf i) :=
  (hn.closed (Inserted.partnerAt_of_lt_lastOf hi)).level hn hi

/-- What a closed range begins with comes to nothing. -/
theorem Closed.climb_item (hn : l.Nested) (h : l.Closed i j) (hij : i < j) :
    l.climb i (l.lastOf i + 1) = 0 :=
  (h.level_item hn hij (level_inside hn)).total

/-- Inside of it a bracket is open. -/
theorem climb_inside (hn : l.Nested) (hix : i < x) (hx : x ≤ l.lastOf i) : 1 ≤ l.climb i x := by
  have hi : i < l.lastOf i := Nat.lt_of_lt_of_le hix hx
  exact (level_inside hn hi).climb_opener hn (Inserted.partnerAt_of_lt_lastOf hi) hi hix hx

/-! ## §3 Slots -/

/-- A comma where no bracket is open but those that are open at `i`. -/
def Divider (l : TokenSequence) (i x : Nat) : Prop := l.isKind x .comma = true ∧ l.climb i x = 0

/-- How slots divide the tokens from `i` on before `close`, when a slot may be open at `i`. -/
structure Divides (l : TokenSequence) (close : Nat) (open? : Option (Nat × Nat)) (i : Nat)
    (slots : List (Nat × Nat)) : Prop where
  /-- The open slot goes on. -/
  goesOn : ∀ r ∈ open?, ∃ s ∈ slots, s.1 = r.1 ∧ r.2 ≤ s.2
  /-- Any other begins at `i` or later. -/
  begins : ∀ s ∈ slots, (∃ r ∈ open?, s.1 = r.1) ∨ i ≤ s.1
  divided : ∀ x, i ≤ x → x < close → l.Divider i x ∨ ∃ s ∈ slots, s.1 ≤ x ∧ x ≤ s.2
  whole : ∀ s ∈ slots, ∀ x, i ≤ x → s.1 ≤ x → x ≤ s.2 → ¬l.Divider i x

variable {open? : Option (Nat × Nat)} {slots : List (Nat × Nat)}

/-- A comma ends the open slot. -/
theorem Divides.comma (hcomma : l.isKind i .comma = true) (hstep : l.climb i (i + 1) = 0)
    (hopen : ∀ s ∈ open?, Before i s) (h : l.Divides c none (i + 1) slots) :
    l.Divides c open? i (open?.toList ++ slots) := by
  have hclimb : ∀ x, i < x → l.climb i x = l.climb (i + 1) x := fun x hx => by
    rw [climb_add l (Nat.le_add_right i 1) hx, hstep, Int.zero_add]
  have hbegins : ∀ s ∈ slots, i < s.1 := fun s hs => by
    obtain ⟨r, hr, -⟩ | h := h.begins s hs
    · cases hr
    · exact h
  refine ⟨fun r hr => ?_, fun s hs => ?_, fun x hx hxc => ?_, fun s hs x hx hsx hxs => ?_⟩
  · exact ⟨r, List.mem_append_left _ (Option.mem_toList.mpr hr), rfl, Nat.le_refl _⟩
  · obtain hs | hs := List.mem_append.mp hs
    · exact .inl ⟨s, Option.mem_toList.mp hs, rfl⟩
    · exact .inr (hbegins s hs).le
  · obtain rfl | hlt := Nat.eq_or_lt_of_le hx
    · exact .inl ⟨hcomma, l.climb_self i⟩
    · obtain ⟨hkind, hzero⟩ | ⟨s, hs, hsx⟩ := h.divided x hlt hxc
      · exact .inl ⟨hkind, by rw [hclimb x hlt, hzero]⟩
      · exact .inr ⟨s, List.mem_append_right _ hs, hsx⟩
  · obtain hs | hs := List.mem_append.mp hs
    · have := (hopen s (Option.mem_toList.mp hs)).2
      omega
    · have hlt := hbegins s hs
      rintro ⟨hkind, hzero⟩
      exact h.whole s hs x (by omega) hsx hxs ⟨hkind, by rw [← hclimb x (by omega), hzero]⟩

/-- Any other token, with what stands before its partner, belongs to the open slot or begins one. -/
theorem Divides.item (hn : l.Nested) (hcomma : ¬l.isKind i .comma = true)
    (hitem : l.climb i (l.lastOf i + 1) = 0) (hopen : ∀ s ∈ open?, Before i s)
    (h : l.Divides c (some ((open?.map Prod.fst).getD i, l.lastOf i)) (l.lastOf i + 1) slots) :
    l.Divides c open? i slots := by
  have hle := l.le_lastOf i
  have hclimb : ∀ x, l.lastOf i < x → l.climb i x = l.climb (l.lastOf i + 1) x := fun x hx => by
    rw [climb_add l (by omega) hx, hitem, Int.zero_add]
  obtain ⟨s₀, hs₀, hfirst, hlast⟩ := h.goesOn _ rfl
  have hstart : (open?.map Prod.fst).getD i ≤ i := by
    cases open? with
    | none => exact Nat.le_refl i
    | some r =>
      obtain ⟨hr, rfl⟩ := hopen r rfl
      exact Nat.le_succ_of_le hr
  refine ⟨fun r hr => ⟨s₀, hs₀, ?_, ?_⟩, fun s hs => ?_, fun x hx hxc => ?_,
    fun s hs x hx hsx hxs => ?_⟩
  · rw [hfirst, Option.mem_def.mp hr]
    rfl
  · have := (hopen r hr).2
    simp only at hlast
    omega
  · obtain ⟨r, hr, hs⟩ | hlt := h.begins s hs
    · obtain rfl := Option.some.inj hr
      cases open? with
      | none => exact .inr (Nat.le_of_eq hs.symm)
      | some r => exact .inl ⟨r, rfl, hs⟩
    · exact .inr (by omega)
  · obtain hxl | hlx := Nat.lt_or_ge (l.lastOf i) x
    · obtain ⟨hkind, hzero⟩ | hslot := h.divided x hxl hxc
      · exact .inl ⟨hkind, by rw [hclimb x hxl, hzero]⟩
      · exact .inr hslot
    · exact .inr ⟨s₀, hs₀, by rw [hfirst]; exact hstart.trans hx, hlx.trans hlast⟩
  · rintro ⟨hkind, hzero⟩
    obtain hxl | hlx := Nat.lt_or_ge (l.lastOf i) x
    · exact h.whole s hs x hxl hsx hxs ⟨hkind, by rw [← hclimb x hxl, hzero]⟩
    · obtain rfl | hlt := Nat.eq_or_lt_of_le hx
      · exact hcomma hkind
      · have := climb_inside hn hlt hlx
        omega

theorem divides_slotsFrom (hn : l.Nested) (open? : Option (Nat × Nat)) (hclosed : l.Closed i c)
    (hopen : ∀ s ∈ open?, Before i s) : l.Divides c open? i (l.slotsFrom c open? i) := by
  fun_induction slotsFrom l c open? i with
  | case1 open? i hi hcomma ih =>
    have hlast : l.lastOf i = i := lastOf_of_plain hn (of_decide_eq_true hcomma) rfl
    have htail := hclosed.tail hn hi
    have hstep := hclosed.climb_item hn hi
    rw [hlast] at htail hstep
    exact .comma hcomma hstep hopen (ih htail (by simp))
  | case2 open? i hi hcomma last ih =>
    have hopen' : ∀ s ∈ some ((open?.map Prod.fst).getD i, last), Before (last + 1) s :=
      ((Walks.item (by simpa using hcomma) (.refl _ _)).before hopen).2
    exact .item hn hcomma (hclosed.climb_item hn hi) hopen (ih (hclosed.tail hn hi) hopen')
  | case3 open? i hi =>
    refine ⟨fun r hr => ⟨r, Option.mem_toList.mpr hr, rfl, Nat.le_refl _⟩,
      fun s hs => .inl ⟨s, Option.mem_toList.mp hs, rfl⟩, fun x hx hxc => by omega,
      fun s hs x hx hsx hxs => ?_⟩
    have := (hopen s (Option.mem_toList.mp hs)).2
    omega

end TokenSequence

/-! ## §4 Arguments -/

open TokenSequence

variable {source : Text} {l : TokenSequence} {o c : Nat} {args : List Argument}

/-- How arguments divide what stands between the brackets that are the tokens `o` and `c`. -/
structure Divided (l : TokenSequence) (source : Text) (o c : Nat) (args : List Argument) : Prop where
  nonempty : ∀ a ∈ args, a.span.start < a.span.stop
  order : args.Pairwise fun a b => a.span.stop ≤ b.span.start
  /-- They begin and end with tokens between the brackets. -/
  covers : ∀ a ∈ args, ∃ f t, o < f ∧ t < c ∧ Covers l a.span f t
  after : ∀ t, l.tokens[o]? = some t → ∀ a ∈ args, t.span.stop ≤ a.span.start
  before : ∀ u, l.tokens[c]? = some u → ∀ a ∈ args, a.span.stop ≤ u.span.start
  /-- A token between the brackets divides arguments, or is a part of one of them and of no other. -/
  tokens : ∀ x t, o < x → x < c → l.tokens[x]? = some t →
    t.kind = .comma ∧ l.depth o x = 0 ∨ ∃! a, a ∈ args ∧ a.span.contains t.span = true
  /-- What divides arguments stands clear of all of them. -/
  dividers : ∀ x t, o < x → x < c → l.tokens[x]? = some t → t.kind = .comma → l.depth o x = 0 →
    ∀ a ∈ args, a.span.stop ≤ t.span.start ∨ t.span.stop ≤ a.span.start
  text : ∀ a ∈ args, a.text = a.span.slice source

theorem contains_of_covers {s s' : Span} {i j i' j' : Nat} (hl : tokenize source = .ok l)
    (h : Covers l s i j) (h' : Covers l s' i' j') (hi : i ≤ i') (hj : j' ≤ j) :
    s.contains s' = true := by
  obtain ⟨hstart, hstop⟩ := h.within hl h' hi hj
  simp [Span.contains, hstart, hstop]

/-- An argument is told by any token it holds. -/
theorem eq_of_contains {s : Span} (hs : s.start < s.stop)
    (horder : args.Pairwise fun a b => a.span.stop ≤ b.span.start) {a b : Argument} (ha : a ∈ args)
    (hb : b ∈ args) (hsa : a.span.contains s = true) (hsb : b.span.contains s = true) : a = b := by
  have hapart : ∀ a b : Argument, a.span.stop ≤ b.span.start →
      ¬(a.span.contains s = true ∧ b.span.contains s = true) := by
    simp only [Span.contains, Bool.and_eq_true, decide_eq_true_eq]
    omega
  exact List.Pairwise.forall_of_forall_of_flip (R := fun a b : Argument =>
      a.span.contains s = true ∧ b.span.contains s = true → a = b) (fun _ _ _ => rfl)
    (horder.imp fun h hs => absurd hs (hapart _ _ h))
    (horder.imp fun h hs => absurd hs.symm (hapart _ _ h)) ha hb ⟨hsa, hsb⟩

theorem divider_iff {t : Token} {x : Nat} (ht : l.tokens[x]? = some t) :
    l.Divider (o + 1) x ↔ t.kind = .comma ∧ l.depth o x = 0 := by
  rw [Divider, isKind, kindAt, ht, depth]
  simp

/-- An argument covers a slot between the brackets. -/
theorem covers_of_mem_slots (hn : l.Nested) (hc : l.partnerAt o = some c) (hoc : o < c) {s : Nat × Nat}
    (hs : s ∈ l.slots o) : o < s.1 ∧ s.2 < c ∧ Covers l (l.argumentIn source s).span s.1 s.2 := by
  have hslot := hn.slotOf hc hoc hs
  exact ⟨hslot.opener, hslot.close, covers_argument hslot.le (hslot.close.trans (hn.lt_size hc))⟩

/-- The arguments of a bracketed list divide what stands between its brackets. -/
theorem arguments_divide (hl : tokenize source = .ok l) {t : Token} (ht : l.tokens[o]? = some t)
    (hopens : t.kind.opens = true) :
    ∃ c u, t.partner = some c ∧ o < c ∧ l.tokens[c]? = some u ∧
      Divided l source o c (l.arguments source o) := by
  have hn := nested_of_tokenize hl
  obtain ⟨c, hc⟩ := hn.partnered o t ht (.inl hopens)
  have hoc := hn.lt_partner ht hopens hc
  have hpartner := partnerAt_eq_some.mpr ⟨t, ht, hc⟩
  obtain ⟨u, hu, -⟩ := hn.pair o t c ht hc
  have hdivides : l.Divides c none (o + 1) (l.slots o) := by
    have := divides_slotsFrom hn none (hn.closed hpartner) (by simp)
    rwa [slots, hpartner]
  have hargs : l.arguments source o = (l.slots o).map (l.argumentIn source) := l.arguments_eq source o
  have hmem : ∀ a ∈ l.arguments source o, ∃ s ∈ l.slots o, l.argumentIn source s = a := fun a ha =>
    List.mem_map.mp (hargs ▸ ha)
  have horder := List.pairwise_map.mp ((runs_arguments source hn hpartner).order hl)
  have hwithin : ∀ a ∈ l.arguments source o, ∃ f t, o < f ∧ t < c ∧ Covers l a.span f t := by
    intro a ha
    obtain ⟨s, hs, rfl⟩ := hmem a ha
    exact ⟨s.1, s.2, covers_of_mem_slots hn hpartner hoc hs⟩
  refine ⟨c, u, hc, hoc, hu, ?_, horder, hwithin, fun t ht a ha => ?_, fun u hu a ha => ?_,
    fun x t hox hxc ht => ?_, fun x t hox hxc ht hkind hdepth a ha => ?_, fun a ha => ?_⟩
  · intro a ha
    obtain ⟨_, _, -, -, h⟩ := hwithin a ha
    exact h.lt hl
  · obtain ⟨_, _, hof, -, h⟩ := hwithin a ha
    exact (Covers.token ht).stop_le_start hl h hof
  · obtain ⟨_, _, -, hfc, h⟩ := hwithin a ha
    exact h.stop_le_start hl (.token hu) hfc
  · obtain h | ⟨s, hs, hsx, hxs⟩ := hdivides.divided x hox hxc
    · exact .inl ((divider_iff ht).mp h)
    · obtain ⟨-, -, hcovers⟩ := covers_of_mem_slots hn hpartner hoc hs
      have hin := contains_of_covers hl hcovers (.token ht) hsx hxs
      have ha : l.argumentIn source s ∈ l.arguments source o := hargs ▸ List.mem_map_of_mem hs
      refine .inr ⟨l.argumentIn source s, ⟨ha, hin⟩, ?_⟩
      rintro b ⟨hb, hbin⟩
      exact eq_of_contains (token_lt hl ht) horder hb ha hbin hin
  · obtain ⟨s, hs, rfl⟩ := hmem a ha
    obtain ⟨-, -, hcovers⟩ := covers_of_mem_slots hn hpartner hoc hs
    obtain hxs | hsx := Nat.lt_or_ge x s.1
    · exact .inr ((Covers.token ht).stop_le_start hl hcovers hxs)
    · obtain hlt | hle := Nat.lt_or_ge s.2 x
      · exact .inl (hcovers.stop_le_start hl (.token ht) hlt)
      · exact absurd ((divider_iff ht).mpr ⟨hkind, hdepth⟩) (hdivides.whole s hs x hox hsx hle)
  · obtain ⟨s, hs, rfl⟩ := hmem a ha
    rfl

/-- A list of four arguments, two of which hold commas of their own. -/
theorem arguments_divide_nested : ∃ l t c,
    tokenize "f(A::class . '::m', [1, 2], g(3, 4), 5,)" = .ok l ∧ l.tokens[1]? = some t ∧
    t.kind.opens = true ∧ t.partner = some c ∧
    (l.arguments "f(A::class . '::m', [1, 2], g(3, 4), 5,)" 1).map Argument.text =
      (["A::class . '::m'", "[1, 2]", "g(3, 4)", "5"] : List Text) ∧
    Divided l "f(A::class . '::m', [1, 2], g(3, 4), 5,)" 1 c
      (l.arguments "f(A::class . '::m', [1, 2], g(3, 4), 5,)" 1) := by
  generalize hsource : ("f(A::class . '::m', [1, 2], g(3, 4), 5,)" : Text) = source
  have h : ((tokenize source).toOption.any fun l => l.tokens[1]?.any fun t => t.kind.opens &&
      (l.arguments source 1).map Argument.text =
        (["A::class . '::m'", "[1, 2]", "g(3, 4)", "5"] : List Text)) = true := by
    rw [← hsource]
    decide +kernel
  obtain ⟨l, hread, h⟩ := (Option.any_eq_true _ _).mp h
  obtain ⟨t, ht, h⟩ := (Option.any_eq_true _ _).mp h
  obtain ⟨hopens, htexts⟩ := Bool.and_eq_true_iff.mp h
  have hl := eq_ok_of_toOption hread
  obtain ⟨c, -, hc, -, -, hdivided⟩ := arguments_divide hl ht hopens
  exact ⟨l, t, c, hl, ht, hopens, hc, of_decide_eq_true htexts, hdivided⟩

end Crosslink.Source
