import Crosslink.Proofs.Grafts
import Crosslink.Proofs.Passing

/-!
# Pieces that can be put into a chain

A whole call that declares links, put after a closing parenthesis, and arguments with their commas,
put into the list of a chained call, leave all other tests alone.

* §1 Words that call nothing.
* §2 `graft_of_call`, a call put into a chain.
* §3 `graft_of_items`, arguments put into the list of a call.
-/

namespace Crosslink.FluentChain

open Source Source.TokenSequence Source.Inserted

variable {l l' : TokenSequence} {i k n : Nat} {source source' : Text} {P Q M : List Piece}
  {block : Array Token}

/-! ## 1. Words that call nothing -/

/-- The kinds of tokens among arguments that can be read. -/
def listKinds : List TokenKind := .comma :: operandKinds

theorem siteAt_eq_none_of_kind (h : l.kindAt i ≠ some .name) : siteAt l i = none := by
  cases hs : siteAt l i with
  | none => rfl
  | some r =>
    obtain ⟨t, ht, hcall⟩ := Option.bind_eq_some_iff.mp hs
    have hname := kind_of_keyword
      (keywordCall_eq_some.mp (show keywordCall l i t = some (r.1, r.2) from hcall)).1
    exact absurd (by rw [kindAt, ht, Option.map_some, hname]) h

theorem siteAt_eq_none_of_next (h : l.kindAt (i + 1) ≠ some .openParen) : siteAt l i = none := by
  cases hs : siteAt l i with
  | none => rfl
  | some r =>
    have hopen := (siteAt_eq_some (show siteAt l i = some (r.1, r.2) from hs)).2.1
    exact absurd (of_decide_eq_true hopen) h

theorem siteAt_eq_none_of_word {text : Text} (h : l.wordAt i = some (.name, text))
    (htext : text = linkingCall ∨ text = coveringCall) : siteAt l i = none := by
  unfold siteAt
  refine Option.bind_eq_none_iff.mpr fun t ht => ?_
  rw [wordAt, ht] at h
  obtain ⟨hkind, rfl⟩ := Prod.mk.inj (Option.some.inj h)
  have hword : Keyword.ofToken t = none := by
    obtain htext | htext := htext <;>
      simp only [Keyword.ofToken, Token.isWord, hkind, htext] <;> decide
  rw [keywordCall_eq, hword]
  rfl

theorem barred_of_kind {kind : TokenKind} (h : l.kindAt i = some kind)
    (hkind : kind ∉ [TokenKind.arrow, .doubleColon, .name]) : barred l (i + 1) = false := by
  obtain ⟨t, ht, rfl⟩ := Option.map_eq_some_iff.mp h
  simp only [List.mem_cons, List.not_mem_nil, or_false, not_or] at hkind
  simp [barred, bars, ht, Token.isOneOf, Token.isWord, hkind]

theorem IsCall.kinds {c : Nat} (h : IsCall l i c) :
    l.kindAt i = some .arrow ∧ l.kindAt (i + 1) = some .name ∧
      l.kindAt (i + 2) = some .openParen :=
  ⟨of_decide_eq_true h.arrow, of_decide_eq_true h.name, of_decide_eq_true h.opener⟩

/-! ## 2. A call put into a chain -/

/-- The pieces of a chained call that declares links, with what stands before its arrow. All its
arguments can be read. -/
structure CallBlock (M : List Piece) : Prop where
  ends : ∀ p ∈ M, ∀ d, p.kind ≠ .broken d
  words : ∃ arrow name opener closer ws, M.filterMap wordOf = (.arrow, arrow) :: (.name, name) ::
    (.openParen, opener) :: (ws ++ [(.closeParen, closer)]) ∧
    (name = linkingCall ∨ name = coveringCall) ∧ ∀ w ∈ ws, w.1 ∈ listKinds
  harmless : Harmless (M.filterMap wordOf)

theorem plain_of_list {kind : TokenKind} (h : kind ∈ listKinds) :
    kind.opens = false ∧ kind.closes = none ∧ kind ≠ .closeParen ∧ kind ≠ .openParen := by
  simp only [listKinds, operandKinds, List.mem_cons, List.not_mem_nil, or_false] at h
  obtain rfl | rfl | rfl | rfl | rfl | rfl := h <;> decide

theorem CallBlock.isBlock (h : CallBlock M) : Block M := by
  obtain ⟨arrow, name, opener, closer, ws, hwords, -, hws⟩ := h.words
  refine ⟨h.ends, ?_⟩
  have hkinds : kindsIn M = [.arrow, .name, .openParen] ++ (ws.map Prod.fst ++ [.closeParen]) := by
    simp [kindsIn, hwords]
  have hplain : settle [.openParen] (ws.map Prod.fst) = some [.openParen] := by
    refine settle_of_plain (fun kind hkind => ?_) _
    obtain ⟨w, hw, rfl⟩ := List.mem_map.mp hkind
    exact ⟨(plain_of_list (hws w hw)).1, (plain_of_list (hws w hw)).2.1⟩
  rw [hkinds, settle_append]
  have hstart : settle [] [.arrow, .name, .openParen] = some [.openParen] := by decide
  rw [hstart, Option.bind_some, settle_append, hplain]
  decide

/-- Where the tokens of a call stand that is put before the token `k`. -/
structure Stands (l' : TokenSequence) (k n : Nat) : Prop where
  len : 4 ≤ n
  call : IsCall l' k (k + n - 1)
  name : ∃ text, l'.wordAt (k + 1) = some (.name, text) ∧
    (text = linkingCall ∨ text = coveringCall)
  closer : l'.kindAt (k + n - 1) = some .closeParen
  inner : ∀ j, 3 ≤ j → j < n - 1 → ∃ kind ∈ listKinds, l'.kindAt (k + j) = some kind

theorem CallBlock.stands (hM : CallBlock M)
    (h : Inserted (P.filterMap wordOf).length (M.filterMap wordOf).length block
      (P.flatMap Piece.text) (M.flatMap Piece.text) l l')
    (hl' : tokenize source' = .ok l') (hs' : cut source' = P ++ (M ++ Q)) :
    Stands l' (P.filterMap wordOf).length (M.filterMap wordOf).length := by
  obtain ⟨arrow, name, opener, closer, ws, hwords, hname, hws⟩ := hM.words
  generalize hk : (P.filterMap wordOf).length = k at h
  generalize hn : (M.filterMap wordOf).length = n at h
  have hat : ∀ j, j < n → l'.wordAt (k + j) = (M.filterMap wordOf)[j]? := by
    intro j hj
    rw [← hk]
    exact wordAt_block hl' hs' (by omega)
  have hlen : n = ws.length + 4 := by simp [← hn, hwords]
  have h0 : l'.kindAt k = some .arrow := by
    have := hat 0 (by omega)
    rw [kindAt_eq, ← Nat.add_zero k, this, hwords]
    rfl
  have h1 : l'.wordAt (k + 1) = some (.name, name) := by
    rw [hat 1 (by omega), hwords]
    rfl
  have h2 : l'.kindAt (k + 2) = some .openParen := by
    rw [kindAt_eq, hat 2 (by omega), hwords]
    rfl
  have hlast : l'.kindAt (k + n - 1) = some .closeParen := by
    rw [kindAt_eq, show k + n - 1 = k + (ws.length + 3) by omega, hat _ (by omega), hwords]
    simp
  have hinner : ∀ j, 3 ≤ j → j < n - 1 → ∃ kind ∈ listKinds, l'.kindAt (k + j) = some kind := by
    intro j hj hjn
    obtain ⟨m, rfl⟩ : ∃ m, j = m + 3 := ⟨j - 3, by omega⟩
    have hm : m < ws.length := by omega
    refine ⟨_, hws _ (List.getElem_mem hm), ?_⟩
    rw [kindAt_eq, hat _ (by omega), hwords]
    simp [List.getElem?_append_left hm, List.getElem?_eq_getElem hm]
  have hpartner : l'.partnerAt (k + 2) = some (k + n - 1) := by
    obtain ⟨t, ht, hkind⟩ := Option.map_eq_some_iff.mp h2
    obtain ⟨q, hq⟩ := h.nested'.partnered _ t ht (.inl (by rw [hkind]; rfl))
    have hq' : l'.partnerAt (k + 2) = some q := partnerAt_eq_some.mpr ⟨t, ht, hq⟩
    have hlt := lt_of_openParen h.nested' (decide_eq_true h2) hq'
    have hclose := of_decide_eq_true (isKind_close h.nested' (decide_eq_true h2) hq')
    -- the partner stands in the block, and there only the last token closes a parenthesis
    have hin := h.inside 2 (by omega)
    rw [ht] at hin
    obtain ⟨u, hu, hcarried⟩ := Option.map_eq_some_iff.mp hin.symm
    rw [← hcarried] at hq
    obtain ⟨r, hr, hrq⟩ := Option.map_eq_some_iff.mp hq
    have hrn := h.closed 2 u r hu hr
    by_cases hend : r = n - 1
    · rw [hq', ← hrq, hend]
      congr 1
      omega
    · obtain ⟨kind, hmem, hkind⟩ := hinner r (by omega) (by omega)
      rw [← hrq, Nat.add_comm r k, hkind] at hclose
      exact absurd (Option.some.inj hclose) (plain_of_list hmem).2.2.1
  refine ⟨by omega, ⟨decide_eq_true h0, decide_eq_true ?_, decide_eq_true h2, hpartner⟩,
    ⟨name, h1, hname⟩, hlast, hinner⟩
  rw [kindAt_eq, h1]
  rfl

theorem not_isCall_of_kind {kind : TokenKind} (h : l.kindAt i = some kind) (hkind : kind ≠ .arrow)
    (c : Nat) : ¬ IsCall l i c := by
  intro hcall
  rw [hcall.kinds.1] at h
  exact hkind (Option.some.inj h).symm

theorem not_isCall_of_next {kind : TokenKind} (h : l.kindAt (i + 1) = some kind)
    (hkind : kind ≠ .name) (c : Nat) : ¬ IsCall l i c := by
  intro hcall
  rw [hcall.kinds.2.1] at h
  exact hkind (Option.some.inj h).symm

theorem not_isCall_of_second {kind : TokenKind} (h : l.kindAt (i + 2) = some kind)
    (hkind : kind ≠ .openParen) (c : Nat) : ¬ IsCall l i c := by
  intro hcall
  rw [hcall.kinds.2.2] at h
  exact hkind (Option.some.inj h).symm

/-- A call that declares links can be put after a closing parenthesis. -/
theorem graft_of_call {a m b : Text} {y : Nat} (h : Inserted (y + 1) n block a m l l')
    (read : tokenize (a ++ b) = .ok l) (read' : tokenize (a ++ (m ++ b)) = .ok l')
    (hstands : Stands l' (y + 1) n) (hclose : l.kindAt y = some .closeParen) :
    ∃ x, Graft (y + 1) n block a m b l l' x y := by
  obtain ⟨t, ht, hkind⟩ := Option.map_eq_some_iff.mp hclose
  obtain ⟨x, hx⟩ := h.nested.partnered y t ht (.inr (by rw [hkind]; decide))
  have hyx : l.partnerAt y = some x := partnerAt_eq_some.mpr ⟨t, ht, hx⟩
  have hxy := h.nested.partnerAt_comm hyx
  have hlt : x < y := by
    obtain ⟨u, -, -, ⟨-, hopens, -⟩ | ⟨hlt, -⟩⟩ := h.nested.pair y t x ht hx
    · rw [hkind] at hopens
      cases hopens
    · exact hlt
  have hlen := hstands.len
  have hclose' : l'.kindAt y = some .closeParen := by
    have := h.kindAt_lift y
    rwa [lift_of_lt (Nat.lt_succ_self y), hclose] at this
  obtain ⟨h0, h1, h2⟩ := hstands.call.kinds
  refine ⟨x, h, read, read', host_of_close h.nested hxy hlt, fun _ => ?_, fun hne => absurd rfl hne,
    ?_, fun hne => absurd rfl hne, ?_, .inl ?_, ?_⟩
  · -- the arrow and the name are passed over one by one, and the list as a whole
    intro s hs
    have hlast : l'.lastOf (y + 1 + 2) = y + 1 + n - 1 :=
      lastOf_eq_partner hstands.call.partner (by omega)
    have hw : ∀ (f i : Nat), l'.isKind i .comma = false →
        Walks l' (some (f, i - 1)) i [] (some (f, l'.lastOf i)) (l'.lastOf i + 1) :=
      fun f i hc => .item hc (.refl _ _)
    have hnc : ∀ {i : Nat} {kind : TokenKind}, l'.kindAt i = some kind → kind ≠ .comma →
        l'.isKind i .comma = false := fun hk hne =>
      decide_eq_false fun he => hne (Option.some.inj (hk.symm.trans he))
    have hw0 := hw s.1 (y + 1) (hnc h0 (by decide))
    have hw1 := hw s.1 (y + 1 + 1) (hnc h1 (by decide))
    have hw2 := hw s.1 (y + 1 + 2) (hnc h2 (by decide))
    rw [lastOf_of_plain h.nested' h0 rfl] at hw0
    rw [lastOf_of_plain h.nested' h1 rfl] at hw1
    rw [hlast, show y + 1 + n - 1 + 1 = y + 1 + n by omega] at hw2
    have := (hw0.trans hw1).trans hw2
    rw [hs]
    obtain ⟨f, e⟩ := s
    obtain rfl : e = y + 1 - 1 := by simp only at hs; omega
    exact this
  · intro i hi hki c
    obtain rfl | rfl : i = y ∨ i + 1 = y := by omega
    · exact ⟨not_isCall_of_kind hclose (by decide) c, not_isCall_of_kind hclose' (by decide) c⟩
    · exact ⟨not_isCall_of_next hclose (by decide) c, not_isCall_of_next hclose' (by decide) c⟩
  · rw [Nat.add_sub_cancel]
    exact ⟨siteAt_eq_none_of_kind (by rw [hclose]; decide),
      siteAt_eq_none_of_kind (by rw [hclose']; decide)⟩
  · rw [barred_of_kind hclose (by decide), show y + 1 + n = y + 1 + n - 1 + 1 by omega]
    exact barred_of_kind hstands.closer (by decide)
  · intro j hj
    obtain rfl | rfl | rfl | ⟨h3, hjn⟩ | rfl : j = 0 ∨ j = 1 ∨ j = 2 ∨ (3 ≤ j ∧ j < n - 1) ∨
        j = n - 1 := by omega
    · exact siteAt_eq_none_of_kind (by rw [Nat.add_zero, h0]; decide)
    · obtain ⟨text, hword, htext⟩ := hstands.name
      exact siteAt_eq_none_of_word hword htext
    · exact siteAt_eq_none_of_kind (by rw [h2]; decide)
    · refine siteAt_eq_none_of_next ?_
      by_cases hend : j + 1 = n - 1
      · rw [show y + 1 + j + 1 = y + 1 + n - 1 by omega, hstands.closer]
        decide
      · obtain ⟨kind, hmem, hk⟩ := hstands.inner (j + 1) (by omega) (by omega)
        rw [Nat.add_assoc, hk]
        exact fun he => (plain_of_list hmem).2.2.2 (Option.some.inj he)
    · refine siteAt_eq_none_of_kind ?_
      rw [show y + 1 + (n - 1) = y + 1 + n - 1 by omega, hstands.closer]
      decide

/-! ## 3. Arguments put into a list -/

/-- Arguments can be put into the list of a chained call, with a comma after them and a comma or
the opening parenthesis before them, or with a comma before them where an argument ends. -/
theorem graft_of_items {a m b : Text} {p y : Nat} (h : Inserted k n block a m l l')
    (read : tokenize (a ++ b) = .ok l) (read' : tokenize (a ++ (m ++ b)) = .ok l')
    (hcall : IsCall l p y) (hhost : Host l k (p + 2) y) (hky : k ≤ y) (hn : 0 < n)
    (hinner : ∀ j, j < n → ∃ kind ∈ listKinds, l'.kindAt (k + j) = some kind)
    (hends : ((k = p + 3 ∨ l.kindAt (k - 1) = some .comma) ∧
        l'.kindAt (k + n - 1) = some .comma) ∨
      (l'.kindAt k = some .comma ∧
        (l.kindAt k = some .comma ∨ l.kindAt k = some .closeParen))) :
    Graft k n block a m b l l' (p + 2) y := by
  obtain ⟨-, hname, hopen⟩ := hcall.kinds
  have hk := hhost.lt
  have hbefore : ∀ i, i < k → l'.kindAt i = l.kindAt i := by
    intro i hi
    rw [← h.kindAt_lift i, lift_of_lt hi]
  have hafter : l'.kindAt (k + n) = l.kindAt k := by
    rw [← h.kindAt_lift k, lift_of_le (Nat.le_refl k)]
  -- what stands before the place in the one case, and after it in the other
  have hleft : (k = p + 3 ∨ l.kindAt (k - 1) = some .comma) →
      l.kindAt (k - 1) = some .openParen ∨ l.kindAt (k - 1) = some .comma := by
    rintro (rfl | hc)
    · exact .inl hopen
    · exact .inr hc
  refine ⟨h, read, read', hhost, fun he => by omega, fun _ => ⟨p, hcall, rfl⟩, ?_, ?_, ?_, ?_, ?_⟩
  · intro i hi hki c
    obtain ⟨hprev, -⟩ | ⟨hblock, hnext⟩ := hends
    · obtain hi' | hi' : i + 1 = k ∨ i + 2 = k := by omega
      · have hi'' : i = k - 1 := by omega
        subst hi''
        obtain hc | hc := hleft hprev
        · exact ⟨not_isCall_of_kind hc (by decide) c,
            not_isCall_of_kind ((hbefore _ hi).trans hc) (by decide) c⟩
        · exact ⟨not_isCall_of_kind hc (by decide) c,
            not_isCall_of_kind ((hbefore _ hi).trans hc) (by decide) c⟩
      · have hi'' : i + 1 = k - 1 := by omega
        have hmid := hbefore (i + 1) (by omega)
        rw [hi''] at hmid
        obtain hc | hc := hleft hprev
        · exact ⟨not_isCall_of_next (hi'' ▸ hc) (by decide) c,
            not_isCall_of_next (hi'' ▸ hmid.trans hc) (by decide) c⟩
        · exact ⟨not_isCall_of_next (hi'' ▸ hc) (by decide) c,
            not_isCall_of_next (hi'' ▸ hmid.trans hc) (by decide) c⟩
    · obtain hi' | hi' : i + 1 = k ∨ i + 2 = k := by omega
      · refine ⟨?_, not_isCall_of_next (hi' ▸ hblock) (by decide) c⟩
        obtain hc | hc := hnext
        · exact not_isCall_of_next (hi' ▸ hc) (by decide) c
        · exact not_isCall_of_next (hi' ▸ hc) (by decide) c
      · refine ⟨?_, not_isCall_of_second (hi' ▸ hblock) (by decide) c⟩
        obtain hc | hc := hnext
        · exact not_isCall_of_second (hi' ▸ hc) (by decide) c
        · exact not_isCall_of_second (hi' ▸ hc) (by decide) c
  · intro _ hclose c
    have hclose := of_decide_eq_true hclose
    obtain ⟨hprev, -⟩ | ⟨hblock, hnext⟩ := hends
    · obtain hc | hc := hleft hprev <;>
      · rw [hc] at hclose
        cases hclose
    · refine ⟨?_, not_isCall_of_kind hblock (by decide) c⟩
      obtain hc | hc := hnext
      · exact not_isCall_of_kind hc (by decide) c
      · exact not_isCall_of_kind hc (by decide) c
  · obtain ⟨hprev, -⟩ | ⟨hblock, hnext⟩ := hends
    · have hmid := hbefore (k - 1) (by omega)
      obtain hc | hc := hleft hprev
      · exact ⟨siteAt_eq_none_of_kind (by rw [hc]; decide),
          siteAt_eq_none_of_kind (by rw [hmid, hc]; decide)⟩
      · exact ⟨siteAt_eq_none_of_kind (by rw [hc]; decide),
          siteAt_eq_none_of_kind (by rw [hmid, hc]; decide)⟩
    · refine ⟨siteAt_eq_none_of_next ?_, siteAt_eq_none_of_next ?_⟩
      · rw [Nat.sub_add_cancel (by omega)]
        obtain hc | hc := hnext <;> rw [hc] <;> decide
      · rw [Nat.sub_add_cancel (by omega), hblock]
        decide
  · obtain ⟨hprev, hlast⟩ | ⟨hblock, hnext⟩ := hends
    · left
      have hlast' : barred l' (k + n - 1 + 1) = false := barred_of_kind hlast (by decide)
      rw [Nat.sub_add_cancel (by omega)] at hlast'
      have hfirst : barred l (k - 1 + 1) = false := by
        obtain hc | hc := hleft hprev <;> exact barred_of_kind hc (by decide)
      rw [Nat.sub_add_cancel (by omega)] at hfirst
      rw [hlast', hfirst]
    · right
      intro t ht
      cases hword : Keyword.ofToken t with
      | none => rfl
      | some keyword =>
        have hk := kind_of_keyword hword
        rw [kindAt, ht, Option.map_some, hk] at hnext
        obtain hc | hc := hnext <;> cases hc
  · intro j hj
    by_cases hend : j + 1 < n
    · refine siteAt_eq_none_of_next ?_
      obtain ⟨kind, hmem, hkind⟩ := hinner (j + 1) hend
      rw [Nat.add_assoc, hkind]
      exact fun he => (plain_of_list hmem).2.2.2 (Option.some.inj he)
    · obtain ⟨-, hlast⟩ | ⟨-, hnext⟩ := hends
      · refine siteAt_eq_none_of_kind ?_
        rw [show k + j = k + n - 1 by omega, hlast]
        decide
      · refine siteAt_eq_none_of_next ?_
        rw [show k + j + 1 = k + n by omega, hafter]
        obtain hc | hc := hnext <;> rw [hc] <;> decide

end Crosslink.FluentChain
