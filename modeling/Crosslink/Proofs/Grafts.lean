import Crosslink.Proofs.Arguments
import Crosslink.Proofs.Sites

/-!
# Tests of two sources

Some pieces are put into a source, after a chained call or among the arguments of one. Every test
is then found again with its name and its identifier, and with the links it had unless the call
belongs to it.

* §1 `Graft`, what has to hold around the place the pieces are put.
* §2 Sites and titles.
* §3 Chains.
* §4 `Graft.testIn_lift`, a test of the one source as a test of the other.
-/

namespace Crosslink.FluentChain

open Source Source.TokenSequence Source.Inserted

/-! ## 1. Grafts -/

/-- The pieces `m` are put into the source `a ++ b`, before its token `k`. They go right after the
list that the tokens `x` and `y` open and close, or among its items, and then it is the list of a
chained call. No call is read across the place. -/
structure Graft (k n : Nat) (block : Array Token) (a m b : Text) (l l' : TokenSequence)
    (x y : Nat) : Prop where
  inserted : Inserted k n block a m l l'
  read : tokenize (a ++ b) = .ok l
  read' : tokenize (a ++ (m ++ b)) = .ok l'
  host : Host l k x y
  joins : k = y + 1 → Joins l' k n
  opener : k ≠ y + 1 → ∃ p, IsCall l p y ∧ x = p + 2
  calls : ∀ i, i < k → k ≤ i + 2 → ∀ c, ¬ IsCall l i c ∧ ¬ IsCall l' i c
  callsAt : k ≠ y + 1 → l.isKind (k - 1) .closeParen = true →
    ∀ c, ¬ IsCall l k c ∧ ¬ IsCall l' k c
  sites : siteAt l (k - 1) = none ∧ siteAt l' (k - 1) = none
  bars : barred l' (k + n) = barred l k ∨ ∀ t, l.tokens[k]? = some t → Keyword.ofToken t = none
  inner : ∀ j, j < n → siteAt l' (k + j) = none

namespace Graft

variable {k n : Nat} {block : Array Token} {a m b : Text} {l l' : TokenSequence} {x y : Nat}

/-! ## 2. Sites -/

theorem siteAt_lift (h : Graft k n block a m b l l' x y) (i : Nat) :
    siteAt l' (lift k n i) = (siteAt l i).map fun r => (r.1, lift k n r.2) := by
  have hk : 0 < k := by
    have := h.host.lt
    omega
  by_cases hlast : i + 1 = k
  · obtain ⟨h₁, h₂⟩ := h.sites
    rw [lift_of_lt (by omega), show i = k - 1 by omega, h₁, h₂]
    rfl
  · unfold siteAt
    rw [h.inserted.outside i]
    cases ht : l.tokens[i]? with
    | none => rfl
    | some t =>
      simp only [Option.map_some, Option.bind_some]
      rw [keywordCall_eq, keywordCall_eq, ← lift_succ hlast, h.inserted.isKind_lift,
        h.inserted.partnerAt_lift]
      have hword : Keyword.ofToken (t.carried (lift k n) (move k (Text.width m)) i) =
          Keyword.ofToken t := rfl
      rw [hword]
      cases hkw : Keyword.ofToken t with
      | none => rfl
      | some keyword =>
        have hbarred : barred l' (lift k n i) = barred l i := by
          by_cases hik : i = k
          · subst hik
            rw [lift_of_le (Nat.le_refl i)]
            obtain hb | hb := h.bars
            · exact hb
            · rw [hb t ht] at hkw
              cases hkw
          · unfold barred
            by_cases hi : i = 0
            · subst hi
              rw [lift_of_lt hk, if_pos rfl, if_pos rfl]
            · have hprev : lift k n i - 1 = lift k n (i - 1) := by
                have := lift_succ (k := k) (n := n) (i := i - 1) (by omega)
                rw [Nat.sub_add_cancel (by omega)] at this
                omega
              have hne : lift k n i ≠ 0 := by
                unfold lift
                split <;> omega
              rw [if_neg hi, if_neg hne, hprev, h.inserted.outside]
              cases l.tokens[i - 1]? <;> rfl
        simp only [Option.bind_some, hbarred]
        cases barred l i with
        | true => rfl
        | false =>
          cases l.isKind (i + 1) .openParen with
          | false => rfl
          | true => cases l.partnerAt (i + 1) <;> rfl

/-- The list of a keyword is not one that pieces are put into. -/
theorem opener_of_site (h : Graft k n block a m b l l' x y) {i : Nat} {keyword : Keyword}
    {close : Nat} (hs : siteAt l i = some (keyword, close)) (hx : i + 1 = x) : k = y + 1 := by
  by_cases hk : k = y + 1
  · exact hk
  · obtain ⟨p, hcall, hp⟩ := h.opener hk
    obtain rfl : i = p + 1 := by omega
    have hbarred := (siteAt_eq_some hs).1
    have harrow := hcall.arrow
    simp only [isKind, kindAt, decide_eq_true_eq, Option.map_eq_some_iff] at harrow
    obtain ⟨t, ht, hkind⟩ := harrow
    simp [barred, FluentChain.bars, ht, hkind] at hbarred

/-! ## 3. Arguments and titles -/

end Graft

/-- The expression an argument is read as. -/
def reading (a : Argument) : Option Expression := (Expression.parse a.text).toOption

theorem argumentTarget_eq (imports : Imports) (a : Argument) :
    argumentTarget imports a =
      (reading a).bind fun e => (Target.parse (e.resolve imports.resolve)).toOption := by
  unfold argumentTarget reading
  cases Expression.parse a.text <;> rfl

/-- What a chained call declares: its name and its targets. -/
def gist (c : Call) : Text × List (Option Target) := (c.name, c.targets)

/-- The title that the first argument of a call spells out. -/
def spelledTitle (arguments : List Argument) : Option Text :=
  (arguments.head?.bind reading).bind Expression.literal?

/-- The title of every group and every test is a quoted text, or left out. -/
def Titled (l : TokenSequence) (source : Text) : Prop :=
  ∀ i r, siteAt l i = some r → l.arguments source (i + 1) = [] ∨
    (spelledTitle (l.arguments source (i + 1))).isSome = true

theorem titleOf_eq {arguments : List Argument}
    (h : arguments = [] ∨ (spelledTitle arguments).isSome = true) :
    titleOf arguments = (spelledTitle arguments).getD [] := by
  cases arguments with
  | nil => rfl
  | cons a rest =>
    obtain h | h := h
    · cases h
    · obtain ⟨title, htitle⟩ := Option.isSome_iff_exists.mp h
      rw [htitle, Option.getD_some]
      obtain ⟨e, he, hliteral⟩ := Option.bind_eq_some_iff.mp htitle
      simp only [List.head?_cons, Option.bind_some, reading] at he
      unfold titleOf
      cases hparse : Expression.parse a.text with
      | error => simp [hparse, Except.toOption] at he
      | ok e' =>
        obtain rfl : e' = e := by simpa [hparse, Except.toOption] using he
        simp only [hparse, hliteral, Option.getD_some]

namespace Graft

variable {k n : Nat} {block : Array Token} {a m b : Text} {l l' : TokenSequence} {x y : Nat}

theorem reading_lift (h : Graft k n block a m b l l' x y) {o : Nat} (ho : o = x → k = y + 1) :
    (l'.arguments (a ++ (m ++ b)) (lift k n o)).map reading =
      (l.arguments (a ++ b) o).map reading := by
  rw [arguments_eq, arguments_eq, h.inserted.slots_lift h.host h.joins ho, List.map_map,
    List.map_map, List.map_map]
  refine List.map_congr_left fun s hs => ?_
  simp only [Function.comp_apply, reading]
  obtain htext | ⟨hne, hne'⟩ := h.inserted.argument_text h.read h.read' h.host h.joins ho hs
  · rw [htext]
  · cases he : Expression.parse (l.argumentIn (a ++ b) s).text with
    | ok e => exact absurd he (hne e)
    | error =>
      cases he' : Expression.parse (l'.argumentIn (a ++ (m ++ b)) (carrySlot k n s)).text with
      | ok e => exact absurd he' (hne' e)
      | error => rfl

theorem arguments_of_site (h : Graft k n block a m b l l' x y) {i : Nat} {r : Keyword × Nat}
    (hs : siteAt l i = some r) :
    (l'.arguments (a ++ (m ++ b)) (lift k n i + 1)).map reading =
      (l.arguments (a ++ b) (i + 1)).map reading := by
  have hne : i + 1 ≠ k := by
    intro hk
    have := h.sites.1
    rw [show k - 1 = i by omega, hs] at this
    cases this
  rw [← lift_succ hne]
  exact h.reading_lift (h.opener_of_site (show siteAt l i = some (r.1, r.2) from hs))

theorem spelledTitle_congr {as bs : List Argument} (h : as.map reading = bs.map reading) :
    spelledTitle as = spelledTitle bs := by
  cases as <;> cases bs <;> simp_all [spelledTitle]

theorem titled_iff (h : Graft k n block a m b l l' x y) {i : Nat} {r : Keyword × Nat}
    (hs : siteAt l i = some r) :
    (l'.arguments (a ++ (m ++ b)) (lift k n i + 1) = [] ∨
        (spelledTitle (l'.arguments (a ++ (m ++ b)) (lift k n i + 1))).isSome = true) ↔
      (l.arguments (a ++ b) (i + 1) = [] ∨
        (spelledTitle (l.arguments (a ++ b) (i + 1))).isSome = true) := by
  have hsame := h.arguments_of_site hs
  rw [spelledTitle_congr hsame, ← List.map_eq_nil_iff (f := reading), hsame, List.map_eq_nil_iff]

/-- Every token of the longer source is one of the shorter or one of the new ones. -/
theorem exists_lift (k n i : Nat) : (∃ j, i = lift k n j) ∨ ∃ j, j < n ∧ i = k + j := by
  by_cases h : i < k
  · exact .inl ⟨i, (lift_of_lt h).symm⟩
  · by_cases h' : i < k + n
    · exact .inr ⟨i - k, by omega, by omega⟩
    · exact .inl ⟨i - n, by rw [lift_of_le (by omega)]; omega⟩

theorem titled_lift (h : Graft k n block a m b l l' x y) :
    Titled l' (a ++ (m ++ b)) ↔ Titled l (a ++ b) := by
  constructor
  · intro ht i r hs
    have hs' := h.siteAt_lift i
    rw [hs] at hs'
    exact (h.titled_iff hs).mp (ht _ _ hs')
  · intro ht i' r' hs'
    obtain ⟨i, rfl⟩ | ⟨j, hj, rfl⟩ := exists_lift k n i'
    · rw [h.siteAt_lift] at hs'
      obtain ⟨r, hs, -⟩ := Option.map_eq_some_iff.mp hs'
      exact (h.titled_iff hs).mpr (ht i r hs)
    · rw [h.inner j hj] at hs'
      cases hs'

theorem titleOf_lift (h : Graft k n block a m b l l' x y) (ht : Titled l (a ++ b)) {i : Nat}
    {r : Keyword × Nat} (hs : siteAt l i = some r) :
    titleOf (l'.arguments (a ++ (m ++ b)) (lift k n i + 1)) =
      titleOf (l.arguments (a ++ b) (i + 1)) := by
  rw [titleOf_eq (ht i r hs), titleOf_eq ((h.titled_iff hs).mpr (ht i r hs)),
    spelledTitle_congr (h.arguments_of_site hs)]

theorem filterMap_range_lift {β : Type} {f : Nat → Option β} (hblock : ∀ j, j < n → f (k + j) = none)
    (i : Nat) : (List.range (lift k n i)).filterMap f =
      (List.range i).filterMap fun j => f (lift k n j) := by
  have hnew : (List.range (k + n)).filterMap f = (List.range k).filterMap f := by
    rw [List.range_add, List.filterMap_append, List.filterMap_map]
    refine List.append_right_eq_self.mpr (List.filterMap_eq_nil_iff.mpr fun j hj => ?_)
    exact hblock j (List.mem_range.mp hj)
  induction i with
  | zero =>
    by_cases hk : 0 < k
    · rw [lift_of_lt hk]
      rfl
    · obtain rfl : k = 0 := by omega
      rw [lift_of_le (Nat.le_refl 0), hnew]
      rfl
  | succ i ih =>
    by_cases hk : i + 1 = k
    · subst hk
      rw [lift_of_le (Nat.le_refl _), hnew, List.range_succ, List.filterMap_append,
        List.filterMap_append, ← ih, lift_of_lt (Nat.lt_succ_self i)]
      simp only [List.filterMap_cons, lift_of_lt (Nat.lt_succ_self i)]
      cases f i <;> rfl
    · rw [lift_succ hk, List.range_succ, List.range_succ, List.filterMap_append, ih,
        List.filterMap_append]
      rfl

theorem groupAt_lift (h : Graft k n block a m b l l' x y) (ht : Titled l (a ++ b)) (i : Nat) :
    groupAt l' (a ++ (m ++ b)) (lift k n i) =
      (groupAt l (a ++ b) i).map fun g => (g.1, lift k n g.2) := by
  have hsite := h.siteAt_lift i
  unfold groupAt
  cases hs : siteAt l i with
  | none =>
    rw [hs] at hsite
    rw [hsite]
    rfl
  | some r =>
    rw [hs] at hsite
    rw [hsite]
    obtain ⟨keyword, close⟩ := r
    cases keyword with
    | describe =>
      simp only [Option.map_some]
      rw [h.titleOf_lift ht hs]
    | test => rfl
    | it => rfl

theorem groupsIn_lift (h : Graft k n block a m b l l' x y) (ht : Titled l (a ++ b)) (i : Nat) :
    groupsIn l' (a ++ (m ++ b)) 0 (lift k n i) =
      (groupsIn l (a ++ b) 0 i).map fun g => (g.1, lift k n g.2) := by
  unfold groupsIn
  rw [Nat.sub_zero, Nat.sub_zero, ← List.range_eq_range', ← List.range_eq_range',
    filterMap_range_lift fun j hj => groupAt_eq_none (h.inner j hj), List.map_filterMap]
  exact List.filterMap_congr fun j _ => h.groupAt_lift ht j

/-! ## 4. Chains -/

theorem isCall_lift (h : Graft k n block a m b l l' x y) {i c : Nat}
    (hcall : IsCall l i c) : IsCall l' (lift k n i) (lift k n c) := by
  have h₁ : i + 1 ≠ k := fun he => (h.calls i (by omega) (by omega) c).1 hcall
  have h₂ : i + 1 + 1 ≠ k := fun he => (h.calls i (by omega) (by omega) c).1 hcall
  refine ⟨?_, ?_, ?_, ?_⟩
  · rw [h.inserted.isKind_lift]
    exact hcall.arrow
  · rw [← lift_succ h₁, h.inserted.isKind_lift]
    exact hcall.name
  · rw [show lift k n i + 2 = lift k n i + 1 + 1 from rfl, ← lift_succ h₁, ← lift_succ h₂,
      h.inserted.isKind_lift]
    exact hcall.opener
  · rw [show lift k n i + 2 = lift k n i + 1 + 1 from rfl, ← lift_succ h₁, ← lift_succ h₂,
      h.inserted.partnerAt_lift, show i + 1 + 1 = i + 2 from rfl, hcall.partner]
    rfl

theorem isCall_of_lift (h : Graft k n block a m b l l' x y) {i c : Nat}
    (hcall : IsCall l' (lift k n i) c) : ∃ d, IsCall l i d := by
  have h₁ : i + 1 ≠ k := by
    intro he
    rw [lift_of_lt (by omega)] at hcall
    exact (h.calls i (by omega) (by omega) c).2 hcall
  have h₂ : i + 1 + 1 ≠ k := by
    intro he
    rw [lift_of_lt (by omega)] at hcall
    exact (h.calls i (by omega) (by omega) c).2 hcall
  obtain ⟨harrow, hname, hopener, hpartner⟩ := hcall
  rw [h.inserted.isKind_lift] at harrow
  rw [← lift_succ h₁, h.inserted.isKind_lift] at hname
  rw [show lift k n i + 2 = lift k n i + 1 + 1 from rfl, ← lift_succ h₁, ← lift_succ h₂] at hopener hpartner
  rw [h.inserted.isKind_lift] at hopener
  rw [h.inserted.partnerAt_lift] at hpartner
  obtain ⟨d, hd, -⟩ := Option.map_eq_some_iff.mp hpartner
  exact ⟨d, harrow, hname, hopener, hd⟩

theorem gist_lift (h : Graft k n block a m b l l' x y) (imports : Imports) {i c : Nat}
    (hcall : IsCall l i c) (hx : i + 2 = x → k = y + 1) :
    gist (callOf l' (a ++ (m ++ b)) imports (lift k n i) (lift k n c)) =
      gist (callOf l (a ++ b) imports i c) := by
  have h₁ : i + 1 ≠ k := fun he => (h.calls i (by omega) (by omega) c).1 hcall
  have h₂ : i + 1 + 1 ≠ k := fun he => (h.calls i (by omega) (by omega) c).1 hcall
  simp only [gist, callOf, Prod.mk.injEq]
  constructor
  · rw [← lift_succ h₁, h.inserted.outside]
    cases l.tokens[i + 1]? <;> rfl
  · rw [show lift k n i + 2 = lift k n i + 1 + 1 from rfl, ← lift_succ h₁, ← lift_succ h₂]
    have hsame := congrArg (List.map fun r : Option Expression =>
      r.bind fun e => (Target.parse (e.resolve imports.resolve)).toOption) (h.reading_lift hx)
    rw [List.map_map, List.map_map] at hsame
    exact ((List.map_congr_left fun a _ => argumentTarget_eq imports a).trans hsame).trans
      (List.map_congr_left fun a _ => (argumentTarget_eq imports a).symm)

/-- A chain that the new pieces are not put into is found again. -/
theorem chained_lift (h : Graft k n block a m b l l' x y) {i : Nat} {cs : List (Nat × Nat)}
    (hcs : Chained l i cs) (hi : 0 < i) (hclose : l.isKind (i - 1) .closeParen = true)
    (hnot : ¬ Reaches l i (y + 1)) :
    Chained l' (resume k n i) (cs.map fun c => (lift k n c.1, lift k n c.2)) ∧
      ∀ imports, ∀ c ∈ cs, gist (callOf l' (a ++ (m ++ b)) imports (lift k n c.1) (lift k n c.2)) =
        gist (callOf l (a ++ b) imports c.1 c.2) := by
  induction hcs with
  | @stop i hstop =>
    refine ⟨.stop fun c hc => ?_, by simp⟩
    by_cases hik : i = k
    · subst hik
      have hy : i ≠ y + 1 := fun he => hnot (he ▸ .refl i)
      rw [resume_self hi] at hc
      exact (h.callsAt hy hclose c).2 hc
    · rw [resume_of_ne hi hik] at hc
      obtain ⟨d, hd⟩ := h.isCall_of_lift hc
      exact hstop d hd
  | @call i c cs hcall rest ih =>
    have hik : i ≠ k := by
      rintro rfl
      have hy : i ≠ y + 1 := fun he => hnot (he ▸ .refl i)
      exact (h.callsAt hy hclose c).1 hcall
    have hx : i + 2 = x → k = y + 1 := by
      intro he
      have := hcall.partner.symm.trans (he ▸ h.host.pair)
      obtain rfl := Option.some.inj this
      exact absurd (.step hcall (.refl _)) hnot
    have hkind : l.isKind (c + 1 - 1) .closeParen = true :=
      isKind_close h.inserted.nested hcall.opener hcall.partner
    obtain ⟨hrest, hgist⟩ := ih (Nat.succ_pos c) hkind fun hr => hnot (.step hcall hr)
    refine ⟨?_, fun imports d hd => ?_⟩
    · rw [resume_of_ne hi hik]
      exact .call (h.isCall_lift hcall) hrest
    · obtain rfl | hd := List.mem_cons.mp hd
      · exact h.gist_lift imports hcall hx
      · exact hgist imports d hd

/-! ## 5. Tests -/

end Graft

theorem links_congr {cs ds : List Call} (h : cs.map gist = ds.map gist) :
    (cs.filter Call.isLink).flatMap Call.links = (ds.filter Call.isLink).flatMap Call.links := by
  induction cs generalizing ds with
  | nil =>
    obtain rfl := List.map_eq_nil_iff.mp h.symm
    rfl
  | cons c cs ih =>
    obtain ⟨d, ds', rfl, hd, hds⟩ := List.map_eq_cons_iff.mp h.symm
    obtain ⟨hname, htargets⟩ := Prod.mk.inj hd
    have hlink : d.isLink = c.isLink := by rw [Call.isLink, Call.isLink, hname]
    have hlinks : d.links = c.links := by
      rw [Call.links, Call.links, htargets, Call.covers, Call.covers, hname]
    simp only [List.filter_cons, hlink]
    split
    · rw [List.flatMap_cons, List.flatMap_cons, hlinks, ih hds.symm]
    · exact ih hds.symm

namespace Graft

variable {k n : Nat} {block : Array Token} {a m b : Text} {l l' : TokenSequence} {x y : Nat}

/-- The test at a site found again: its name and its identifier are the same when titles are quoted
texts, and so are its links unless the new pieces belong to its chain. -/
structure Again (l : TokenSequence) (T : Prop) (y i : Nat) (t t' : Test) : Prop where
  name : T → t'.case.name = t.case.name
  identifier : T → t'.case.identifier = t.case.identifier
  links : ∀ keyword close, siteAt l i = some (keyword, close) → ¬ Reaches l (close + 1) (y + 1) →
    t'.case.links = t.case.links

theorem testAt_lift (h : Graft k n block a m b l l' x y) (imports : Imports)
    {groups groups' : List Text} (hgroups : Titled l (a ++ b) → groups' = groups) {i c : Nat}
    {keyword : Keyword} {t t' : Token} (hs : siteAt l i = some (keyword, c)) :
    Again l (Titled l (a ++ b)) y i (testAt l (a ++ b) imports groups keyword i c t)
      (testAt l' (a ++ (m ++ b)) imports groups' keyword (lift k n i) (lift k n c) t') := by
  refine ⟨fun ht => ?_, fun ht => ?_, ?_⟩
  · simp only [testAt, h.titleOf_lift ht hs, hgroups ht]
  · simp only [testAt, h.titleOf_lift ht hs, hgroups ht]
  · intro keyword' close hs' hnot
    obtain ⟨-, rfl⟩ := Prod.mk.inj (Option.some.inj (hs.symm.trans hs'))
    obtain ⟨-, hopener, hpartner⟩ := siteAt_eq_some hs
    obtain ⟨cs, hcs, hchain⟩ := exists_chained h.inserted.nested (c + 1)
    obtain ⟨cs', hcs', hchain'⟩ := exists_chained h.inserted.nested' (lift k n c + 1)
    have hclose : l.isKind (c + 1 - 1) .closeParen = true :=
      isKind_close h.inserted.nested hopener hpartner
    obtain ⟨hlifted, hgist⟩ := h.chained_lift hcs (Nat.succ_pos c) hclose hnot
    obtain rfl := hcs'.unique hlifted
    simp only [testAt]
    rw [hchain _ _ _ (by omega), hchain' _ _ _ (by omega)]
    refine links_congr ?_
    rw [List.map_map, List.map_map, List.map_map]
    exact List.map_congr_left fun d hd => hgist imports d hd

/-- The groups around a site are found again around it. -/
theorem around_lift (groups : List (Text × Nat)) (i : Nat) :
    ((groups.map fun g => (g.1, lift k n g.2)).filter (lift k n i ≤ ·.2)).map Prod.fst
      = (groups.filter (i ≤ ·.2)).map Prod.fst := by
  rw [List.filter_map, List.map_map]
  have hle : ∀ g : Text × Nat, ((fun g => decide (lift k n i ≤ g.2)) ∘
      fun g : Text × Nat => (g.1, lift k n g.2)) g = decide (i ≤ g.2) := by
    intro g
    have := lift_lt_lift (k := k) (n := n) (i := g.2) (j := i)
    simp only [Function.comp_apply, decide_eq_decide]
    omega
  rw [List.filter_congr fun g _ => hle g]
  rfl

theorem testIn_lift (h : Graft k n block a m b l l' x y) (imports : Imports)
    {groups groups' : List (Text × Nat)} (i : Nat)
    (hgroups : Titled l (a ++ b) → groups' = groups.map fun g => (g.1, lift k n g.2)) :
    Option.Rel (Again l (Titled l (a ++ b)) y i) (testIn l (a ++ b) imports groups i)
      (testIn l' (a ++ (m ++ b)) imports groups' (lift k n i)) := by
  have hsite := h.siteAt_lift i
  cases hs : siteAt l i with
  | none =>
    rw [hs] at hsite
    rw [testIn_eq_none hs, testIn_eq_none hsite]
    exact .none
  | some r =>
    rw [hs] at hsite
    obtain ⟨keyword, c⟩ := r
    obtain ⟨t, htok, hcall⟩ := Option.bind_eq_some_iff.mp hs
    obtain ⟨t', htok', hcall'⟩ := Option.bind_eq_some_iff.mp hsite
    have haround : Titled l (a ++ b) → (groups'.filter (lift k n i ≤ ·.2)).map Prod.fst =
        (groups.filter (i ≤ ·.2)).map Prod.fst := fun ht => by
      rw [hgroups ht, around_lift]
    simp only [testIn, htok, htok', Option.bind_some, hcall, hcall']
    cases keyword with
    | describe => exact .none
    | test => exact .some (h.testAt_lift imports haround hs)
    | it => exact .some (h.testAt_lift imports haround hs)

theorem lift_size (h : Graft k n block a m b l l' x y) :
    lift k n l.tokens.size = l'.tokens.size := by
  rw [lift_of_le h.inserted.le_size, h.inserted.size]

/-- The tests of the shorter source are those of the longer one, each at its site. -/
theorem located_lift (h : Graft k n block a m b l l' x y) (imports : Imports) :
    List.Forall₂ (fun p q => q.1 = lift k n p.1 ∧ Again l (Titled l (a ++ b)) y p.1 p.2 q.2)
      (located l (a ++ b) imports) (located l' (a ++ (m ++ b)) imports) := by
  have hblock : ∀ j, j < n → (testIn l' (a ++ (m ++ b)) imports
      (groupsIn l' (a ++ (m ++ b)) 0 (k + j)) (k + j)).map (k + j, ·) = none := by
    intro j hj
    rw [testIn_eq_none (h.inner j hj)]
    rfl
  unfold located
  rw [← h.lift_size, filterMap_range_lift hblock]
  generalize List.range l.tokens.size = is
  induction is with
  | nil => exact .nil
  | cons i is ih =>
    have hrel := h.testIn_lift imports i fun ht => h.groupsIn_lift ht i
    rw [List.filterMap_cons, List.filterMap_cons]
    generalize testIn l (a ++ b) imports (groupsIn l (a ++ b) 0 i) i = t at hrel ⊢
    generalize testIn l' (a ++ (m ++ b)) imports (groupsIn l' (a ++ (m ++ b)) 0 (lift k n i))
      (lift k n i) = t' at hrel ⊢
    cases hrel with
    | none => exact ih
    | some hagain => exact .cons ⟨rfl, hagain⟩ ih

end Graft

end Crosslink.FluentChain
