import Crosslink.Proofs.Insertion

/-!
# The slots of a bracketed list

The arguments of a bracketed list are ranges of tokens, its slots. They are found on a walk that
passes over brackets whole and ends a slot at every comma, so the slots found when some tokens are
put in or taken out can be told from the parts of the walk before, over and after them.

* §1 `slots`, the arguments of a list as ranges of tokens.
* §2 `Walks`, the walk over a list, and how it splits.
* §3 The walk over two sources of which one has some pieces more.
* §4 `Inserted.slots_lift`, the slots of the lists that the pieces are not put into.
-/

namespace Crosslink.Source

namespace TokenSequence

/-! ## 1. Slots -/

/-- The first and the last token of each argument between the tokens `i` and `close`. -/
def slotsFrom (l : TokenSequence) (close : Nat) (open? : Option (Nat × Nat)) (i : Nat) :
    List (Nat × Nat) :=
  if i < close then
    if l.isKind i .comma then open?.toList ++ slotsFrom l close none (i + 1)
    else
      let last := l.lastOf i
      slotsFrom l close (some ((open?.map Prod.fst).getD i, last)) (last + 1)
  else open?.toList
termination_by close - i
decreasing_by
  · omega
  · have := l.le_lastOf i
    omega

/-- The first and the last token of each argument of the list opened by the bracket at an index. -/
def slots (l : TokenSequence) (opener : Nat) : List (Nat × Nat) :=
  match l.partnerAt opener with
  | some close => l.slotsFrom close none (opener + 1)
  | none => []

/-- The argument in a slot. -/
def argumentIn (l : TokenSequence) (source : Text) (s : Nat × Nat) : Argument :=
  l.argument source s.1 s.2

theorem argumentsFrom_eq (l : TokenSequence) (source : Text) (close : Nat)
    (open? : Option (Nat × Nat)) (i : Nat) :
    l.argumentsFrom source close open? i =
      (l.slotsFrom close open? i).map (l.argumentIn source) := by
  fun_induction slotsFrom l close open? i with
  | case1 open? i hi hcomma ih =>
    rw [argumentsFrom, if_pos hi, if_pos hcomma, ih, List.map_append]
    cases open? <;> rfl
  | case2 open? i hi hcomma last ih =>
    rw [argumentsFrom, if_pos hi, if_neg hcomma]
    exact ih
  | case3 open? i hi =>
    rw [argumentsFrom, if_neg hi]
    cases open? <;> rfl

theorem arguments_eq (l : TokenSequence) (source : Text) (opener : Nat) :
    l.arguments source opener = (l.slots opener).map (l.argumentIn source) := by
  unfold arguments slots
  cases l.partnerAt opener with
  | none => rfl
  | some close => exact argumentsFrom_eq l source close none (opener + 1)

/-! ## 2. Walks -/

/-- The walk over a list from one place to another: the slot that is open at each end, and the slots
that are finished on the way. -/
inductive Walks (l : TokenSequence) :
    Option (Nat × Nat) → Nat → List (Nat × Nat) → Option (Nat × Nat) → Nat → Prop
  | refl (o : Option (Nat × Nat)) (i : Nat) : Walks l o i [] o i
  | comma {o p : Option (Nat × Nat)} {i j : Nat} {S : List (Nat × Nat)}
      (kind : l.isKind i .comma = true) (rest : Walks l none (i + 1) S p j) :
      Walks l o i (o.toList ++ S) p j
  | item {o p : Option (Nat × Nat)} {i j : Nat} {S : List (Nat × Nat)}
      (kind : l.isKind i .comma = false)
      (rest : Walks l (some ((o.map Prod.fst).getD i, l.lastOf i)) (l.lastOf i + 1) S p j) :
      Walks l o i S p j

variable {l : TokenSequence} {o p q : Option (Nat × Nat)} {i j m x : Nat} {S T : List (Nat × Nat)}

theorem Walks.trans (h : Walks l o i S p j) (h' : Walks l p j T q m) : Walks l o i (S ++ T) q m := by
  induction h with
  | refl => exact h'
  | comma kind rest ih =>
    rw [List.append_assoc]
    exact .comma kind (ih h')
  | item kind rest ih => exact .item kind (ih h')

theorem Walks.le (h : Walks l o i S p j) : i ≤ j := by
  induction h with
  | refl => exact Nat.le_refl _
  | comma kind rest ih => omega
  | @item o p i j S kind rest ih =>
    have := l.le_lastOf i
    omega

/-- What is found on a walk is what `slotsFrom` finds, as long as the list does not end before. -/
theorem Walks.slotsFrom_eq (h : Walks l o i S p j) {close : Nat} (hj : j ≤ close) :
    l.slotsFrom close o i = S ++ l.slotsFrom close p j := by
  induction h with
  | refl => rfl
  | comma kind rest ih =>
    have := rest.le
    rw [slotsFrom, if_pos (by omega), if_pos kind, ih hj, List.append_assoc]
  | @item o p i j S kind rest ih =>
    have := rest.le
    have := l.le_lastOf i
    rw [slotsFrom, if_pos (by omega), if_neg (by simp [kind])]
    exact ih hj

theorem slotsFrom_close (l : TokenSequence) (close : Nat) (o : Option (Nat × Nat)) :
    l.slotsFrom close o close = o.toList := by
  rw [slotsFrom, if_neg (Nat.lt_irrefl _)]

/-- A slot that is open at `i` ends right before. -/
def Before (i : Nat) (s : Nat × Nat) : Prop := s.1 ≤ s.2 ∧ s.2 + 1 = i

theorem Walks.before (h : Walks l o i S p j) (ho : ∀ s ∈ o, Before i s) :
    (∀ s ∈ S, s.1 ≤ s.2 ∧ s.2 + 1 < j) ∧ ∀ s ∈ p, Before j s := by
  induction h with
  | refl => exact ⟨by simp, ho⟩
  | @comma o p i j S kind rest ih =>
    obtain ⟨hS, hp⟩ := ih (by simp)
    refine ⟨fun s hs => ?_, hp⟩
    obtain hs | hs := List.mem_append.mp hs
    · have hb := ho s (Option.mem_toList.mp hs)
      have := rest.le
      exact ⟨hb.1, by have := hb.2; omega⟩
    · exact hS s hs
  | @item o p i j S kind rest ih =>
    refine ih fun s hs => ?_
    obtain rfl := Option.mem_some_iff.mp hs
    have hle := l.le_lastOf i
    refine ⟨?_, rfl⟩
    cases o with
    | none => exact hle
    | some s =>
      obtain ⟨h₁, h₂⟩ := ho s rfl
      simp only [Option.map_some, Option.getD_some]
      omega

/-- The item of a walk that a token belongs to. -/
theorem Walks.exists_item (h : Walks l o i S p j) (hi : i ≤ x) (hx : x < j)
    (hcomma : l.isKind x .comma = false) :
    ∃ S₁ r u S₂, S = S₁ ++ S₂ ∧ Walks l o i S₁ r u ∧ u ≤ x ∧ x ≤ l.lastOf u ∧
      l.isKind u .comma = false ∧
      Walks l (some ((r.map Prod.fst).getD u, l.lastOf u)) (l.lastOf u + 1) S₂ p j := by
  induction h with
  | refl => omega
  | @comma o p i j S kind rest ih =>
    have hne : i ≠ x := by
      rintro rfl
      simp [kind] at hcomma
    obtain ⟨S₁, r, u, S₂, rfl, hw, hu⟩ := ih (by omega) hx
    exact ⟨o.toList ++ S₁, r, u, S₂, (List.append_assoc ..).symm, .comma kind hw, hu⟩
  | @item o p i j S kind rest ih =>
    by_cases hlast : x ≤ l.lastOf i
    · exact ⟨[], o, i, S, rfl, .refl o i, hi, hlast, kind, rest⟩
    · obtain ⟨S₁, r, u, S₂, rfl, hw, hu⟩ := ih (by omega) hx
      exact ⟨S₁, r, u, S₂, rfl, .item kind hw, hu⟩

/-- The walk over a slot: up to its first token, to its last, and on from there. -/
theorem Walks.exists_slot (h : Walks l o i S p j) (ho : ∀ s ∈ o, Before i s)
    {S₁ S₂ : List (Nat × Nat)} {s : Nat × Nat} (hS : S ++ p.toList = S₁ ++ s :: S₂) :
    (Walks l o i S₁ none s.1 ∧ Walks l none s.1 [] (some s) (s.2 + 1) ∨
      S₁ = [] ∧ (∃ r ∈ o, r.1 = s.1) ∧ Walks l o i [] (some s) (s.2 + 1)) ∧
    ∃ T, Walks l (some s) (s.2 + 1) T p j ∧ T ++ p.toList = s :: S₂ := by
  induction h generalizing S₁ with
  | refl o i =>
    cases o with
    | none => cases S₁ <;> cases hS
    | some r =>
      cases S₁ with
      | nil =>
        obtain ⟨rfl, rfl⟩ := List.cons.inj hS
        obtain ⟨-, rfl⟩ := ho r rfl
        exact ⟨.inr ⟨rfl, ⟨r, rfl, rfl⟩, .refl _ _⟩, [], .refl _ _, rfl⟩
      | cons r' S₁ => cases S₁ <;> cases hS
  | @comma o p i j S kind rest ih =>
    cases o with
    | none =>
      obtain ⟨⟨hw, hs⟩ | ⟨-, ⟨r, hr, -⟩, -⟩, hT⟩ := ih (by simp) hS
      · exact ⟨.inl ⟨.comma kind hw, hs⟩, hT⟩
      · cases hr
    | some r =>
      cases S₁ with
      | nil =>
        obtain ⟨rfl, rfl⟩ := List.cons.inj hS
        obtain ⟨-, rfl⟩ := ho r rfl
        exact ⟨.inr ⟨rfl, ⟨r, rfl, rfl⟩, .refl _ _⟩, _, .comma kind rest, rfl⟩
      | cons r' S₁ =>
        obtain ⟨rfl, hS'⟩ := List.cons.inj hS
        obtain ⟨⟨hw, hs⟩ | ⟨-, ⟨r, hr, -⟩, -⟩, hT⟩ := ih (by simp) hS'
        · exact ⟨.inl ⟨.comma kind hw, hs⟩, hT⟩
        · cases hr
  | @item o p i j S kind rest ih =>
    have hopen : ∀ s ∈ some ((o.map Prod.fst).getD i, l.lastOf i), Before (l.lastOf i + 1) s :=
      ((Walks.item kind (.refl _ _)).before ho).2
    obtain ⟨⟨hw, hs⟩ | ⟨rfl, ⟨r, hr, hrs⟩, hw⟩, hT⟩ := ih hopen hS
    · exact ⟨.inl ⟨.item kind hw, hs⟩, hT⟩
    · obtain rfl := Option.mem_some_iff.mp hr
      cases o with
      | none =>
        obtain rfl : i = s.1 := hrs
        exact ⟨.inl ⟨.refl _ _, .item kind hw⟩, hT⟩
      | some r => exact ⟨.inr ⟨rfl, ⟨r, rfl, hrs⟩, .item kind hw⟩, hT⟩

theorem partnerAt_eq_some {q : Nat} :
    l.partnerAt i = some q ↔ ∃ t, l.tokens[i]? = some t ∧ t.partner = some q :=
  Option.bind_eq_some_iff

/-- What stands between two partners is closed there. -/
theorem Nested.between (hl : l.Nested) {c q : Nat} (hc : l.partnerAt x = some c) (hxi : x < i)
    (hic : i < c) (hq : l.partnerAt i = some q) : x < q ∧ q < c := by
  obtain ⟨t, ht, htc⟩ := partnerAt_eq_some.mp hc
  obtain ⟨u, hu, huq⟩ := partnerAt_eq_some.mp hq
  exact hl.inside x t c ht htc (by omega) i u q hxi hic hu huq

theorem Nested.partnerAt_comm (hl : l.Nested) {c : Nat} (hc : l.partnerAt x = some c) :
    l.partnerAt c = some x := by
  obtain ⟨t, ht, htc⟩ := partnerAt_eq_some.mp hc
  obtain ⟨u, hu, hux, -⟩ := hl.pair x t c ht htc
  exact partnerAt_eq_some.mpr ⟨u, hu, hux⟩

/-- Of two partners the first opens what the second closes. -/
theorem Nested.kinds_of_partner (hl : l.Nested) {c : Nat} (hc : l.partnerAt x = some c)
    (hxc : x < c) : ∃ o d, l.kindAt x = some o ∧ l.kindAt c = some d ∧ o.Pairs d := by
  obtain ⟨t, ht, htc⟩ := partnerAt_eq_some.mp hc
  obtain ⟨u, hu, -, ⟨-, hkinds⟩ | ⟨hlt, -⟩⟩ := hl.pair x t c ht htc
  · exact ⟨t.kind, u.kind, by rw [kindAt, ht]; rfl, by rw [kindAt, hu]; rfl, hkinds⟩
  · omega

theorem Nested.ne_partner (hl : l.Nested) {c : Nat} (hc : l.partnerAt x = some c) : x ≠ c := by
  obtain ⟨t, ht, htc⟩ := partnerAt_eq_some.mp hc
  obtain ⟨u, -, -, ⟨hlt, -⟩ | ⟨hlt, -⟩⟩ := hl.pair x t c ht htc <;> omega

theorem Nested.isKind_of_partner (hl : l.Nested) {c : Nat} (hc : l.partnerAt x = some c)
    (hxc : x < c) {kind : TokenKind} (hkind : kind.opens = false) : l.isKind x kind = false := by
  obtain ⟨o, d, ho, -, hopens, -⟩ := hl.kinds_of_partner hc hxc
  rw [isKind, ho]
  refine decide_eq_false fun he => ?_
  rw [Option.some.inj he, hkind] at hopens
  cases hopens

theorem Nested.lt_size (hl : l.Nested) {c : Nat} (hc : l.partnerAt x = some c) :
    c < l.tokens.size := by
  obtain ⟨u, hu, -⟩ := partnerAt_eq_some.mp (hl.partnerAt_comm hc)
  exact (Array.getElem?_eq_some_iff.mp hu).1

/-- An opening bracket stands before its partner. -/
theorem Nested.lt_partner (hl : l.Nested) {t : Token} {c : Nat} (ht : l.tokens[x]? = some t)
    (hopens : t.kind.opens = true) (hc : t.partner = some c) : x < c := by
  obtain ⟨u, -, -, ⟨hlt, -⟩ | ⟨-, -, hfalse, -⟩⟩ := hl.pair x t c ht hc
  · exact hlt
  · rw [hopens] at hfalse
    cases hfalse

/-- The end of a list opens nothing. -/
theorem Nested.isKind_last (hl : l.Nested) {c : Nat} (hc : l.partnerAt x = some c) (hxc : x < c)
    {kind : TokenKind} (hkind : kind.opens = true) : l.isKind c kind = false := by
  refine decide_eq_false fun h => ?_
  obtain ⟨u, hu, hku⟩ := Option.map_eq_some_iff.mp h
  obtain ⟨v, hv, hvo⟩ := partnerAt_eq_some.mp (hl.partnerAt_comm hc)
  obtain rfl := Option.some.inj (hu.symm.trans hv)
  have := hl.lt_partner hu (by rw [hku, hkind]) hvo
  omega

theorem Nested.lastOf_lt (hl : l.Nested) {c : Nat} (hc : l.partnerAt x = some c) (hxi : x < i)
    (hic : i < c) : l.lastOf i < c := by
  unfold lastOf
  split
  · rename_i q hq
    have := hl.between hc hxi hic hq
    split <;> omega
  · exact hic

/-- The walk over a whole list. -/
theorem Nested.exists_walks (hl : l.Nested) {c : Nat} (hc : l.partnerAt x = some c) (hxc : x < c) :
    ∃ S p, Walks l none (x + 1) S p c ∧ l.slots x = S ++ p.toList := by
  suffices ∀ o i, x < i → i ≤ c → ∃ S p, Walks l o i S p c by
    obtain ⟨S, p, hw⟩ := this none (x + 1) (Nat.lt_succ_self x) hxc
    refine ⟨S, p, hw, ?_⟩
    rw [slots, hc]
    exact (hw.slotsFrom_eq (Nat.le_refl c)).trans (by rw [slotsFrom_close])
  intro o i hxi hic
  fun_induction slotsFrom l c o i with
  | case1 o i hi kind ih =>
    obtain ⟨S, p, hw⟩ := ih (by omega) hi
    exact ⟨_, p, .comma kind hw⟩
  | case2 o i hi kind last ih =>
    obtain ⟨S, p, hw⟩ := ih (by have := l.le_lastOf i; omega) (hl.lastOf_lt hc hxi hi)
    exact ⟨S, p, .item (by simpa using kind) hw⟩
  | case3 o i hi =>
    obtain rfl : i = c := by omega
    exact ⟨[], o, .refl o i⟩

/-- The slot that is open goes on at least as far. -/
theorem Walks.head_open {s : Nat × Nat} (h : Walks l (some s) i S p j) (hs : s.2 < i) :
    ∃ r R, S ++ p.toList = r :: R ∧ r.1 = s.1 ∧ s.2 ≤ r.2 := by
  generalize ho : some s = o at h
  induction h generalizing s with
  | refl o i => subst ho; exact ⟨s, [], rfl, rfl, Nat.le_refl _⟩
  | comma kind rest ih => subst ho; exact ⟨s, _, rfl, rfl, Nat.le_refl _⟩
  | @item o p i j S kind rest ih =>
    subst ho
    obtain ⟨r, R, hr, h₁, h₂⟩ := ih (Nat.lt_succ_self _) rfl
    have := l.le_lastOf i
    simp only at h₂
    exact ⟨r, R, hr, h₁, by omega⟩

/-- A slot ends before a comma or at the end of the list. -/
theorem Walks.next_of_slot {s : Nat × Nat} (h : Walks l (some s) i S p j) (hs : s.2 < i)
    {S₂ : List (Nat × Nat)} (hS : S ++ p.toList = s :: S₂) : i = j ∨ l.isKind i .comma = true := by
  cases h with
  | refl => exact .inl rfl
  | comma kind rest => exact .inr kind
  | item kind rest =>
    obtain ⟨r, R, hr, -, h₂⟩ := rest.head_open (Nat.lt_succ_self _)
    rw [hS] at hr
    obtain ⟨rfl, -⟩ := List.cons.inj hr
    have := l.le_lastOf i
    simp only at h₂
    omega

/-- Where the slots of a list are. -/
structure SlotOf (l : TokenSequence) (x c : Nat) (s : Nat × Nat) : Prop where
  opener : x < s.1
  le : s.1 ≤ s.2
  close : s.2 < c
  next : s.2 + 1 = c ∨ l.isKind (s.2 + 1) .comma = true
  start : ∃ S, Walks l none (x + 1) S none s.1
  walk : Walks l none s.1 [] (some s) (s.2 + 1)

theorem Nested.slotOf (hl : l.Nested) {c : Nat} (hc : l.partnerAt x = some c) (hxc : x < c)
    {s : Nat × Nat} (hs : s ∈ l.slots x) : SlotOf l x c s := by
  obtain ⟨S, p, hw, hslots⟩ := hl.exists_walks hc hxc
  rw [hslots] at hs
  obtain ⟨S₁, S₂, hS⟩ := List.append_of_mem hs
  obtain ⟨⟨hw₁, hw₂⟩ | ⟨-, ⟨r, hr, -⟩, -⟩, T, hw₃, hT⟩ := hw.exists_slot (by simp) hS
  · have h₁ := hw₁.le
    have h₂ := hw₃.le
    exact ⟨by omega, ((hw₂.before (by simp)).2 s rfl).1, by omega,
      hw₃.next_of_slot (Nat.lt_succ_self _) hT, ⟨S₁, hw₁⟩, hw₂⟩
  · cases hr

theorem slots_of_le {c : Nat} (hc : l.partnerAt x = some c) (hcx : c ≤ x) :
    l.slots x = [] := by
  rw [slots, hc]
  simp only
  rw [slotsFrom, if_neg (by omega)]
  rfl

end TokenSequence

/-! ## 3. Walks over two sources -/

namespace Inserted

open TokenSequence

variable {k n : Nat} {block : Array Token} {a m : Text} {l l' : TokenSequence}
  {o p : Option (Nat × Nat)} {i j : Nat} {S : List (Nat × Nat)}

theorem kindAt_lift (h : Inserted k n block a m l l') (i : Nat) :
    l'.kindAt (lift k n i) = l.kindAt i := by
  unfold kindAt
  rw [h.outside i]
  cases l.tokens[i]? <;> rfl

theorem isKind_lift (h : Inserted k n block a m l l') (i : Nat) (kind : TokenKind) :
    l'.isKind (lift k n i) kind = l.isKind i kind := by
  unfold isKind
  rw [h.kindAt_lift]

theorem partnerAt_lift (h : Inserted k n block a m l l') (i : Nat) :
    l'.partnerAt (lift k n i) = (l.partnerAt i).map (lift k n) := by
  unfold partnerAt
  rw [h.outside i]
  cases l.tokens[i]? <;> rfl

theorem lastOf_lift (h : Inserted k n block a m l l') (i : Nat) :
    l'.lastOf (lift k n i) = lift k n (l.lastOf i) := by
  unfold lastOf
  rw [h.partnerAt_lift]
  cases l.partnerAt i with
  | none => rfl
  | some q =>
    simp only [Option.map_some, lift_lt_lift]
    split <;> rfl

/-- Where a slot is found again. One that ends right before the place of the new pieces takes them
in. -/
def carrySlot (k n : Nat) (s : Nat × Nat) : Nat × Nat := (lift k n s.1, lift k n (s.2 + 1) - 1)

theorem carrySlot_of_lt {k n : Nat} {s : Nat × Nat} (h : s.1 ≤ s.2) (h' : s.2 + 1 < k) :
    carrySlot k n s = s := by
  rw [carrySlot, lift_of_lt (by omega), lift_of_lt h']
  rfl

theorem walks_below (h : Inserted k n block a m l l') (hw : Walks l o i S p j) (hj : j ≤ k) :
    Walks l' o i S p j := by
  induction hw with
  | refl => exact .refl _ _
  | @comma o p i j S kind rest ih =>
    have := rest.le
    refine .comma ?_ (ih hj)
    rw [← h.isKind_lift, lift_of_lt (by omega)] at kind
    exact kind
  | @item o p i j S kind rest ih =>
    have := rest.le
    have := l.le_lastOf i
    have hlast := h.lastOf_lift i
    rw [lift_of_lt (by omega), lift_of_lt (by omega)] at hlast
    rw [← h.isKind_lift, lift_of_lt (by omega)] at kind
    exact .item kind (by rw [hlast]; exact ih hj)

theorem walks_above (h : Inserted k n block a m l l') (hw : Walks l o i S p j) (hi : k ≤ i) :
    Walks l' (o.map (carrySlot k n)) (i + n) (S.map (carrySlot k n)) (p.map (carrySlot k n))
      (j + n) := by
  induction hw with
  | refl => exact .refl _ _
  | @comma o p i j S kind rest ih =>
    have := ih (by omega)
    rw [← h.isKind_lift, lift_of_le hi] at kind
    rw [List.map_append]
    have hstep := Walks.comma (o := o.map (carrySlot k n)) kind (by rwa [Nat.add_right_comm] at this)
    cases o <;> exact hstep
  | @item o p i j S kind rest ih =>
    have hle := l.le_lastOf i
    have := ih (by omega)
    have hlast := h.lastOf_lift i
    rw [lift_of_le hi, lift_of_le (by omega)] at hlast
    rw [← h.isKind_lift, lift_of_le hi] at kind
    have hcarry : carrySlot k n ((o.map Prod.fst).getD i, l.lastOf i) =
        (((o.map (carrySlot k n)).map Prod.fst).getD (i + n), l.lastOf i + n) := by
      have hstop : lift k n (l.lastOf i + 1) - 1 = l.lastOf i + n := by
        rw [lift_of_le (by omega)]
        omega
      rw [carrySlot, hstop]
      cases o with
      | none => simp [lift_of_le hi]
      | some s => rfl
    rw [Option.map_some, hcarry, Nat.add_right_comm] at this
    refine .item kind ?_
    rw [hlast]
    exact this

/-- Where the new pieces go: right after a list that the token `y` closes, or inside it but inside
no list that it holds. The token `x` opens the list. -/
structure Host (l : TokenSequence) (k x y : Nat) : Prop where
  pair : l.partnerAt x = some y
  lt : x < k
  le : k ≤ y + 1
  around : ∀ o c, l.partnerAt o = some c → o < k → k ≤ c → o = x ∨ (o < x ∧ y < c)

theorem host_of_close (hl : l.Nested) {x y : Nat} (hxy : l.partnerAt x = some y) (h : x < y) :
    Host l (y + 1) x y where
  pair := hxy
  lt := by omega
  le := Nat.le_refl _
  around o c hoc ho hc := by
    have hyx := hl.partnerAt_comm hxy
    have hne : o ≠ y := by
      rintro rfl
      rw [hyx] at hoc
      obtain rfl := Option.some.inj hoc
      omega
    have := hl.between hoc (i := y) (by omega) (by omega) hyx
    exact .inr ⟨this.1, by omega⟩

/-- The new pieces are passed over as a part of the item they follow. -/
def Joins (l' : TokenSequence) (k n : Nat) : Prop :=
  ∀ s : Nat × Nat, s.2 + 1 = k → Walks l' (some s) (s.2 + 1) [] (some (s.1, k + n - 1)) (k + n)

theorem map_carrySlot_of_before {o : Option (Nat × Nat)} (hw : Walks l none i S o j)
    (hj : j ≤ k) : S.map (carrySlot k n) = S ∧ (j < k → o.map (carrySlot k n) = o) := by
  obtain ⟨hS, ho⟩ := hw.before (by simp)
  constructor
  · refine (List.map_congr_left fun s hs => ?_).trans (List.map_id S)
    obtain ⟨h₁, h₂⟩ := hS s hs
    exact carrySlot_of_lt h₁ (by omega)
  · intro hjk
    cases o with
    | none => rfl
    | some s =>
      obtain ⟨h₁, h₂⟩ := ho s rfl
      rw [Option.map_some, carrySlot_of_lt h₁ (by omega)]

theorem lastOf_eq_partner {x y : Nat} (hxy : l.partnerAt x = some y) (h : x < y) :
    l.lastOf x = y := by
  rw [lastOf, hxy]
  exact if_pos h

theorem partnerAt_of_lt_lastOf {u : Nat} (h : u < l.lastOf u) :
    l.partnerAt u = some (l.lastOf u) := by
  unfold lastOf at h ⊢
  split at h
  · rename_i q hq
    split at h
    · rename_i hlt
      rw [hq]
      simp [hlt]
    · omega
  · omega

/-- An item that holds the opening bracket of a list holds its closing bracket. -/
theorem le_lastOf_of_mem (hl : l.Nested) {x y u : Nat} (hxy : l.partnerAt x = some y) (h : x < y)
    (hu : u ≤ x) (hx : x ≤ l.lastOf u) : y ≤ l.lastOf u := by
  by_cases hux : u = x
  · subst hux
    exact Nat.le_of_eq (lastOf_eq_partner hxy h).symm
  · have hpartner := partnerAt_of_lt_lastOf (l := l) (u := u) (by omega)
    have hne : x ≠ l.lastOf u := by
      intro he
      have := hl.partnerAt_comm hpartner
      rw [← he, hxy] at this
      obtain rfl := Option.some.inj this
      omega
    have := hl.between hpartner (i := x) (by omega) (by omega) hxy
    omega

/-! ## 4. The slots of other lists -/

theorem Host.lt_partner (hl : l.Nested) {x y : Nat} (hh : Host l k x y) : x < y := by
  have := hh.lt
  have := hh.le
  have := hl.ne_partner hh.pair
  omega

/-- A slot that holds the place holds the host of the new pieces. -/
theorem Host.holds (hl : l.Nested) {x y : Nat} (hh : Host l k x y) {b c : Nat}
    (hc : l.partnerAt b = some c) (hbc : b < c) (hb : b = x → k = y + 1) {s : Nat × Nat}
    (hs : s ∈ l.slots b) (hk : s.1 < k) (hk' : k ≤ s.2 + 1) : s.1 ≤ x ∧ x ≤ s.2 := by
  have hxy := hh.lt_partner hl
  have hlt := hh.lt
  have hslot := hl.slotOf hc hbc hs
  have hopener := hslot.opener
  have hclose := hslot.close
  obtain rfl | ⟨hbx, -⟩ := hh.around b c hc (by omega) (by omega)
  · have := hb rfl
    rw [hh.pair] at hc
    have := Option.some.inj hc
    omega
  · refine ⟨?_, by omega⟩
    by_cases hle : s.1 ≤ x
    · exact hle
    · -- the walk to the slot would have stopped inside the host
      obtain ⟨S, hw⟩ := hslot.start
      obtain ⟨S₁, r, u, S₂, -, -, hux, hxu, -, hw₂⟩ := hw.exists_item (x := x) (by omega) (by omega)
        (hl.isKind_of_partner hh.pair hxy rfl)
      have := le_lastOf_of_mem hl hh.pair hxy hux hxu
      have := hw₂.le
      have := hh.le
      omega

/-- The slots of the other lists are found again, each where its tokens are. -/
theorem slots_lift (h : Inserted k n block a m l l') {x y : Nat} (hh : Host l k x y)
    (hjoins : k = y + 1 → Joins l' k n) {b : Nat} (hb : b = x → k = y + 1) :
    l'.slots (lift k n b) = (l.slots b).map (carrySlot k n) := by
  cases hc : l.partnerAt b with
  | none => simp [slots, h.partnerAt_lift, hc]
  | some c =>
    have hc' : l'.partnerAt (lift k n b) = some (lift k n c) := by rw [h.partnerAt_lift, hc]; rfl
    by_cases hbc : b < c
    · obtain ⟨S, p, hw, hS⟩ := h.nested.exists_walks hc hbc
      have hbc' : lift k n b < lift k n c := lift_lt_lift.mpr hbc
      suffices Walks l' none (lift k n b + 1) (S.map (carrySlot k n)) (p.map (carrySlot k n))
          (lift k n c) by
        rw [slots, hc', hS, List.map_append]
        refine (this.slotsFrom_eq (Nat.le_refl _)).trans ?_
        rw [slotsFrom_close]
        cases p <;> rfl
      by_cases hck : c < k
      · obtain ⟨hSeq, hpeq⟩ := map_carrySlot_of_before (k := k) (n := n) hw (by omega)
        rw [hSeq, hpeq hck, lift_of_lt (by omega), lift_of_lt hck]
        exact h.walks_below hw (by omega)
      by_cases hkb : k ≤ b
      · have := h.walks_above hw (by omega)
        rw [lift_of_le hkb, lift_of_le (by omega), Nat.add_right_comm b n 1]
        exact this
      -- the list holds the place, and so the item that the host of the new pieces belongs to
      have hxy := hh.lt_partner h.nested
      obtain ⟨hbx, hyc⟩ : b < x ∧ y < c := by
        obtain hlt | hlt := hh.around b c hc (by omega) (by omega)
        · have hk := hb hlt
          rw [hlt, hh.pair] at hc
          have := Option.some.inj hc
          omega
        · exact hlt
      obtain ⟨S₁, r, u, S₂, rfl, hw₁, hux, hxu, hcomma, hw₂⟩ := hw.exists_item (x := x) (by omega)
        (by omega) (h.nested.isKind_of_partner hh.pair hxy rfl)
      have hyu := le_lastOf_of_mem h.nested hh.pair hxy hux hxu
      have huk : u < k := by have := hh.lt; omega
      have hku : k ≤ l.lastOf u + 1 := by have := hh.le; omega
      obtain ⟨hSeq, hreq⟩ := map_carrySlot_of_before (k := k) (n := n) hw₁ (by omega)
      have hfirst : lift k n ((r.map Prod.fst).getD u) = (r.map Prod.fst).getD u := by
        refine lift_of_lt ?_
        cases r with
        | none => exact huk
        | some s =>
          obtain ⟨h₁, h₂⟩ := (hw₁.before (by simp)).2 s rfl
          simp only [Option.map_some, Option.getD_some]
          omega
      have hover : Walks l' none (b + 1) S₁ (some (carrySlot k n ((r.map Prod.fst).getD u, l.lastOf u)))
          (l.lastOf u + 1 + n) := by
        have hlast := h.lastOf_lift u
        rw [lift_of_lt huk] at hlast
        rw [← h.isKind_lift, lift_of_lt huk] at hcomma
        have hitem := (h.walks_below hw₁ (by omega)).trans
          (.item hcomma (.refl _ _))
        rw [hlast, List.append_nil] at hitem
        rw [carrySlot, hfirst]
        by_cases hjoin : l.lastOf u + 1 = k
        · have hyk : k = y + 1 := by have := hh.le; omega
          rw [lift_of_lt (show l.lastOf u < k by omega)] at hitem
          have hend := hitem.trans (hjoins hyk (_, l.lastOf u) hjoin)
          rw [hjoin, lift_of_le (Nat.le_refl k)]
          simpa using hend
        · have hstop : lift k n (l.lastOf u + 1) - 1 = l.lastOf u + n := by
            rw [lift_of_le (by omega)]
            omega
          rw [hstop, Nat.add_right_comm]
          rwa [lift_of_le (by omega)] at hitem
      have habove := h.walks_above hw₂ (by omega)
      have hall := hover.trans habove
      rw [List.map_append, hSeq, lift_of_lt (by omega), lift_of_le (by omega)]
      exact hall
    · have hbc' : ¬ lift k n b < lift k n c := fun hlt => hbc (lift_lt_lift.mp hlt)
      rw [slots_of_le hc (by omega), slots_of_le hc' (by omega)]
      rfl

end Inserted

end Crosslink.Source
