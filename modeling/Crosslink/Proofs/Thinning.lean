import Crosslink.Proofs.Bypassing
import Crosslink.Proofs.Carving
import Crosslink.Proofs.Conflicts
import Crosslink.Proofs.Renaming
import Crosslink.Proofs.Retracing

/-!
# Attributes and what stands between them

The tokens of an attribute that names a target hold no brackets but those that pair among themselves. Where
a group holds nothing outside its attributes but blanks, comments and commas, the same goes for all that
stands between two of its tokens, if the attributes there name targets.

* §1 `block_of_enclosed`, a stretch of a source whose brackets pair among themselves.
* §2 `Occupies`, the tokens of an attribute.
* §3 `AttributeGroup.Tidy`, the groups that attributes can be taken out of.
* §4 Places of tokens and pieces.
* §5 `Gap`, two tokens that no attribute stands between, and `Tidy.stretch`.
-/

namespace Crosslink.Source

open TokenSequence

variable {source out : Text} {l l' : TokenSequence} {P M Q : List Piece} {i j o c e : Nat} {t : Token}

/-! ## §1 Stretches -/

/-- A piece that holds no token is a block. -/
theorem block_of_none {p : Piece} (hp : wordOf p = none) (hends : ∀ d, p.kind ≠ .broken d) : Block [p] := by
  refine ⟨fun q hq => ?_, ?_⟩
  · obtain rfl := List.mem_singleton.mp hq
    exact hends
  · rw [kindsIn_of_none hp]
    rfl

/-- The brackets among some tokens have their partners among them. -/
def TokenSequence.Enclosed (l : TokenSequence) (lo hi : Nat) : Prop :=
  ∀ i j, lo ≤ i → i < hi → l.partnerAt i = some j → lo ≤ j ∧ j < hi

section Enclosed

variable {lo hi q : Nat} {p : Piece} {kind : TokenKind}

/-- The first of them closes no bracket. -/
theorem TokenSequence.Enclosed.lt_partner (h : l.Enclosed lo hi) (hn : l.Nested) (hlt : lo < hi)
    (hq : l.partnerAt lo = some q) : lo < q ∧ q < hi := by
  obtain ⟨hle, hin⟩ := h lo q (Nat.le_refl lo) hlt hq
  exact ⟨Nat.lt_of_le_of_ne hle (hn.ne_partner hq), hin⟩

theorem TokenSequence.Enclosed.after_plain (h : l.Enclosed lo hi) (hn : l.Nested)
    (hnone : l.partnerAt lo = none) : l.Enclosed (lo + 1) hi := by
  intro i j hlow hhigh hj
  obtain ⟨hlow', hhigh'⟩ := h i j (by omega) hhigh hj
  refine ⟨Nat.lt_of_le_of_ne hlow' fun heq => ?_, hhigh'⟩
  have hback := hn.partnerAt_comm hj
  rw [← heq, hnone] at hback
  cases hback

theorem TokenSequence.Enclosed.after_bracket (h : l.Enclosed lo hi) (hn : l.Nested) (hlt : lo < q)
    (hq : l.partnerAt lo = some q) : l.Enclosed (q + 1) hi := by
  intro i j hlow hhigh hj
  obtain ⟨hlow', hhigh'⟩ := h i j (by omega) hhigh hj
  refine ⟨?_, hhigh'⟩
  by_contra hle
  have hback := hn.partnerAt_comm hj
  obtain rfl | hne := Nat.eq_or_lt_of_le hlow'
  · have := Option.some.inj (hq.symm.trans hback)
    omega
  · obtain rfl | hlt' := Nat.eq_or_lt_of_le (show j ≤ q by omega)
    · have := Option.some.inj ((hn.partnerAt_comm hq).symm.trans hback)
      omega
    · have := (hn.between hq hne hlt' hback).2
      omega

/-- A bracket and the one that closes it enclose what is between them. -/
theorem enclosed_of_partner (hn : l.Nested) (hlt : lo < hi) (hc : l.partnerAt lo = some hi) :
    l.Enclosed lo (hi + 1) := by
  intro i j hlow hhigh hj
  obtain rfl | hlow := Nat.eq_or_lt_of_le hlow
  · obtain rfl := Option.some.inj (hc.symm.trans hj)
    exact ⟨hlt.le, Nat.lt_succ_self _⟩
  · obtain rfl | hhigh := Nat.eq_or_lt_of_le (Nat.le_of_lt_succ hhigh)
    · obtain rfl := Option.some.inj ((hn.partnerAt_comm hc).symm.trans hj)
      exact ⟨Nat.le_refl _, by omega⟩
    · have := hn.between hc hlow hhigh hj
      omega

/-- A bracket among some pieces that the one that closes it is among, too. -/
theorem exists_bracketed_front (hl : tokenize source = .ok l) (hcut : cut source = P ++ (p :: M ++ Q))
    (hp : p.kind = .token kind) (hq : l.partnerAt (countIn P) = some q) (hlt : countIn P < q)
    (hin : q < countIn P + countIn (p :: M)) :
    ∃ M₁ q' M₂, M = M₁ ++ q' :: M₂ ∧ Bracketed p M₁ q' ∧ countIn (P ++ p :: (M₁ ++ [q'])) = q + 1 := by
  obtain ⟨A, p', M₁, q', Q₁, hcut', hA, hM₁, hb⟩ := exists_bracket hl hq hlt
  obtain ⟨o, d, hp', hq', -⟩ := hb.kinds
  obtain ⟨rfl, rfl, hrest⟩ := eq_of_countIn (C := cut source) (by simpa using hcut) hcut' hp hp' hA.symm
  rw [← List.singleton_append, countIn_append, countIn_singleton hp] at hin
  obtain ⟨M₂, rfl⟩ : ∃ M₂, M = M₁ ++ q' :: M₂ := by
    have hpre := prefix_of_count (A := M₁) (q := q') (C := M ++ Q) ⟨Q₁, by rw [hrest]; simp⟩ ⟨Q, rfl⟩
    obtain ⟨z, hz⟩ : M₁ ++ [q'] <+: M := hpre (by omega)
    exact ⟨z, by rw [← hz]; simp⟩
  refine ⟨M₁, q', M₂, rfl, hb, ?_⟩
  rw [countIn_append, ← List.singleton_append, countIn_append, countIn_append, countIn_singleton hp,
    countIn_singleton hq']
  omega

/-- A token that no other is the partner of is no bracket. -/
theorem plain_of_partnerAt (hn : l.Nested) (hkind : l.kindAt i = some kind) (hnone : l.partnerAt i = none) :
    kind.opens = false ∧ kind.closes = none := by
  obtain ⟨t, ht, rfl⟩ := Option.map_eq_some_iff.mp hkind
  have hnot : ¬ (t.kind.opens = true ∨ t.kind.closes ≠ none) := fun hbracket => by
    obtain ⟨q, hq⟩ := hn.partnered i t ht hbracket
    rw [partnerAt_eq_some.mpr ⟨t, ht, hq⟩] at hnone
    cases hnone
  rw [not_or, not_not] at hnot
  exact ⟨Bool.eq_false_iff.mpr hnot.1, hnot.2⟩

/-- Pieces whose brackets have their partners among them are a block. -/
theorem block_of_enclosed (hl : tokenize source = .ok l) (hcut : cut source = P ++ (M ++ Q))
    (h : l.Enclosed (countIn P) (countIn P + countIn M)) : Block M := by
  have hn := nested_of_tokenize hl
  -- a bracket goes with all that it encloses, and every other piece by itself
  induction hlen : M.length using Nat.strong_induction_on generalizing P M with
  | _ length ih =>
    cases M with
    | nil => exact .nil
    | cons p M =>
      rw [List.length_cons] at hlen
      have hcut₁ : cut source = (P ++ [p]) ++ (M ++ Q) := by rw [hcut]; simp
      have hcount : countIn (P ++ [p]) + countIn M = countIn P + countIn (p :: M) := by
        rw [← countIn_append, ← countIn_append, List.append_assoc]
        rfl
      obtain ⟨kind, hp⟩ | hp := token_or_none p
      · have hafter : countIn (P ++ [p]) = countIn P + 1 := by rw [countIn_append, countIn_singleton hp]
        cases hpartner : l.partnerAt (countIn P) with
        | none =>
          have hkind : l.kindAt (countIn P) = some kind :=
            kindAt_of_cut (Q := M ++ Q) hl (by simpa using hcut) hp
          obtain ⟨hopens, hcloses⟩ := plain_of_partnerAt hn hkind hpartner
          have hblock := ih M.length (by omega) hcut₁
            (by rw [hcount, hafter]; exact h.after_plain hn hpartner) rfl
          exact (block_of_token hp hopens hcloses).append hblock
        | some q =>
          obtain ⟨hlt, hin⟩ := h.lt_partner hn (by omega) hpartner
          obtain ⟨M₁, q', M₂, rfl, hb, hend⟩ := exists_bracketed_front hl hcut hp hpartner hlt hin
          have hcount₂ : q + 1 + countIn M₂ = countIn P + countIn (p :: (M₁ ++ q' :: M₂)) := by
            rw [← hend, ← countIn_append, ← countIn_append]
            simp
          have hblock := ih M₂.length (by simp at hlen; omega) (P := P ++ p :: (M₁ ++ [q']))
            (by rw [hcut]; simp)
            (by rw [hend, hcount₂]; exact h.after_bracket hn hlt hpartner) rfl
          simpa using hb.isBlock.append hblock
      · have hafter : countIn (P ++ [p]) = countIn P := by
          rw [countIn_append]
          simp [countIn, hp]
        have hblock := ih M.length (by omega) hcut₁ (by rw [hcount, hafter]; exact h) rfl
        exact (block_of_none hp fun d => ne_broken_of_tokenize hl (by rw [hcut]; simp) d).append hblock

end Enclosed

/-! ## §2 The tokens of an attribute -/

/-- A token of a list is a comma, or it stands in a slot. -/
theorem TokenSequence.Walks.comma_or_slot {o p : Option (Nat × Nat)} {S : List (Nat × Nat)} {q : Nat}
    (h : Walks l o i S p j) (ho : ∀ s ∈ o, s.1 ≤ i) (hi : i ≤ q) (hj : q < j) :
    l.kindAt q = some .comma ∨ ∃ s ∈ S ++ p.toList, s.1 ≤ q ∧ q ≤ s.2 := by
  induction h with
  | refl => omega
  | @comma o p i j S kind rest ih =>
    obtain rfl | hlt := Nat.eq_or_lt_of_le hi
    · exact .inl (of_decide_eq_true kind)
    · refine (ih (by simp) hlt hj).imp_right fun ⟨s, hs, hin⟩ => ⟨s, ?_, hin⟩
      rw [List.append_assoc]
      exact List.mem_append_right _ hs
  | @item o p i j S kind rest ih =>
    have hfirst : (o.map Prod.fst).getD i ≤ i := by
      cases o with
      | none => exact Nat.le_refl i
      | some s => exact ho s rfl
    have hlast := l.le_lastOf i
    by_cases hq : q ≤ l.lastOf i
    · obtain ⟨r, R, hr, hstart, hstop⟩ := rest.head_open (Nat.lt_succ_self _)
      refine .inr ⟨r, hr ▸ List.mem_cons_self, ?_, ?_⟩
      · rw [hstart]
        exact Nat.le_trans hfirst hi
      · exact Nat.le_trans hq hstop
    · refine ih (fun s hs => ?_) (by omega) hj
      obtain rfl := Option.some.inj hs
      dsimp only
      omega

namespace AttributeGroup

/-- The attribute whose name is the token `i` takes up the tokens from there to the token `e`. -/
structure Occupies (l : TokenSequence) (source : Text) (i e : Nat) (t : Token) : Prop where
  covers : Covers l (attributeAt l source i t).1.span i e
  next : (attributeAt l source i t).2 = e + 1
  enclosed : l.Enclosed i (e + 1)
  last : l.kindAt e = some .name ∨ l.kindAt e = some .closeParen

variable (source) in
theorem attributeAt_of_list (t : Token) (hopen : l.isKind (i + 1) .openParen = true)
    (hq : l.partnerAt (i + 1) = some e) (hlt : i + 1 < e) : attributeAt l source i t =
      (⟨t.text, t.span, ⟨t.span.start, l.stopAt e⟩, l.arguments source (i + 1)⟩, e + 1) := by
  rw [attributeAt, if_pos hopen, hq]
  dsimp only
  rw [Nat.max_eq_left (by omega)]

variable (source) in
theorem attributeAt_of_name (t : Token) (hopen : l.isKind (i + 1) .openParen = false) :
    attributeAt l source i t = (⟨t.text, t.span, t.span, []⟩, i + 1) := by
  rw [attributeAt, if_neg (by simp [hopen])]

variable (source) in
/-- An attribute of a group ends before the group does. -/
theorem exists_occupied (hn : l.Nested) (hc : l.partnerAt o = some c) (ho : o < i) (hi : i < c)
    (ht : l.tokens[i]? = some t) (hname : t.kind = .name) : ∃ e, Occupies l source i e t ∧ i ≤ e ∧ e < c := by
  have hkind : l.kindAt i = some .name := by rw [kindAt, ht, Option.map_some, hname]
  have hnone := partnerAt_of_plain hn hkind rfl rfl
  cases hopen : l.isKind (i + 1) .openParen with
  | true =>
    obtain ⟨e, he, hlt⟩ := partner_lt hn hopen
    have hic : i + 1 < c := by
      refine Nat.lt_of_le_of_ne hi fun heq => ?_
      rw [heq, hn.isKind_last hc (by omega) rfl] at hopen
      cases hopen
    have hec := (hn.between hc (by omega) hic he).2
    have hattribute := attributeAt_of_list source t hopen he hlt
    refine ⟨e, ⟨?_, by rw [hattribute], fun q r hq hqe hr => ?_, ?_⟩, by omega, hec⟩
    · rw [hattribute]
      exact .of_tokens (by omega) ht (hn.lt_size he)
    · obtain rfl | hq := Nat.eq_or_lt_of_le hq
      · rw [hnone] at hr
        cases hr
      · have := enclosed_of_partner hn hlt he q r hq hqe hr
        omega
    · exact .inr (of_decide_eq_true (FluentChain.isKind_close hn hopen he))
  | false =>
    have hattribute := attributeAt_of_name source t hopen
    refine ⟨i, ⟨?_, by rw [hattribute], fun q r hq hqe hr => ?_, .inl hkind⟩, Nat.le_refl i, hi⟩
    · rw [hattribute]
      exact .token ht
    · obtain rfl : q = i := by omega
      rw [hnone] at hr
      cases hr

/-- The kinds of tokens of an attribute that names a target. -/
def attributeKinds : List TokenKind := .openParen :: .closeParen :: .comma :: operandKinds

/-- An attribute that names a target holds no brackets but those of its list. -/
theorem Occupies.kinds {imports : Imports} {target : Target} (hl : tokenize source = .ok l)
    (h : Occupies l source i e t) (ht : l.tokens[i]? = some t) (hname : t.kind = .name)
    (htarget : (attributeAt l source i t).1.target imports = some target) {q : Nat} (hi : i ≤ q) (hq : q ≤ e) :
    ∃ kind ∈ attributeKinds, l.kindAt q = some kind := by
  have hn := nested_of_tokenize hl
  have hkind : l.kindAt i = some .name := by rw [kindAt, ht, Option.map_some, hname]
  obtain rfl | hi := Nat.eq_or_lt_of_le hi
  · exact ⟨.name, by decide, hkind⟩
  cases hopen : l.isKind (i + 1) .openParen with
  | true =>
    obtain ⟨e', he, hlt⟩ := partner_lt hn hopen
    have hattribute := attributeAt_of_list source t hopen he hlt
    obtain rfl : e' = e := by
      have := h.next
      rw [hattribute] at this
      exact Nat.succ.inj this
    have hopener := of_decide_eq_true hopen
    obtain rfl | hi := Nat.eq_or_lt_of_le (Nat.succ_le_of_lt hi)
    · exact ⟨.openParen, by decide, hopener⟩
    obtain rfl | hq := Nat.eq_or_lt_of_le hq
    · exact ⟨.closeParen, by decide, of_decide_eq_true (FluentChain.isKind_close hn hopen he)⟩
    obtain ⟨S, p, hwalk, hslots⟩ := hn.exists_walks he hlt
    obtain hcomma | ⟨s, hs, hlow, hhigh⟩ := hwalk.comma_or_slot (by simp) (Nat.succ_le_of_lt hi) hq
    · exact ⟨.comma, by decide, hcomma⟩
    · rw [← hslots] at hs
      rw [hattribute, Attribute.target, Attribute.classArguments] at htarget
      obtain ⟨x, hx, -⟩ := Option.bind_eq_some_iff.mp htarget
      obtain ⟨y, hy, -⟩ := Option.bind_eq_some_iff.mp hx
      obtain ⟨x, hx⟩ := Attribute.parse_of_gather hy (l.argumentIn source s) (by
        dsimp only
        rw [arguments_eq]
        exact List.mem_map_of_mem hs)
      obtain ⟨kind, hmem, hkind⟩ := kindAt_of_slot hl he hlt hs hx hlow hhigh
      exact ⟨kind, by simp [attributeKinds, hmem], hkind⟩
  | false =>
    have := h.next
    rw [attributeAt_of_name source t hopen] at this
    dsimp only at this
    omega

end AttributeGroup

/-! ## §3 Tidy groups -/

/-- True for a blank, a comment or a comma. -/
def Piece.isFiller (p : Piece) : Bool :=
  match p.kind with
  | .blank | .comment | .doc => true
  | .token kind => kind = .comma
  | .markup | .broken _ => false

/-- Outside its attributes a group holds nothing but blanks, comments and commas. -/
def AttributeGroup.Tidy (source : Text) (g : AttributeGroup) : Prop :=
  ∀ A p R, cut source = A ++ p :: R → g.span.start < Reading.extent A →
    Reading.extent (A ++ [p]) < g.span.stop →
    (∀ a ∈ g.attributes, Reading.extent (A ++ [p]) ≤ a.span.start ∨ a.span.stop ≤ Reading.extent A) →
    p.isFiller = true

/-- True if the pieces from an offset on are tidy where they stand in a group. -/
def AttributeGroup.tidyFrom (g : AttributeGroup) : Nat → List Piece → Bool
  | _, [] => true
  | n, p :: ps =>
    (p.isFiller || !(g.span.start < n && n + Text.width p.text < g.span.stop &&
      g.attributes.all fun a => n + Text.width p.text ≤ a.span.start || a.span.stop ≤ n)) &&
        g.tidyFrom (n + Text.width p.text) ps

theorem AttributeGroup.isFiller_of_tidyFrom {g : AttributeGroup} {n : Nat} {ps A R : List Piece} {p : Piece}
    (h : g.tidyFrom n ps = true) (hps : ps = A ++ p :: R) (hstart : g.span.start < n + Reading.extent A)
    (hstop : n + Reading.extent (A ++ [p]) < g.span.stop)
    (hout : ∀ a ∈ g.attributes,
      n + Reading.extent (A ++ [p]) ≤ a.span.start ∨ a.span.stop ≤ n + Reading.extent A) :
    p.isFiller = true := by
  induction ps generalizing n A with
  | nil => simp at hps
  | cons q ps ih =>
    obtain ⟨hfirst, hrest⟩ := Bool.and_eq_true_iff.mp h
    cases A with
    | nil =>
      obtain ⟨rfl, rfl⟩ := List.cons.inj hps
      have hwidth : Reading.extent ([] ++ [q]) = Text.width q.text := by simp [Reading.extent]
      have hnone : Reading.extent [] = 0 := rfl
      rw [hwidth] at hstop hout
      rw [hnone] at hstart hout
      obtain hfiller | hnot := Bool.or_eq_true_iff.mp hfirst
      · exact hfiller
      · exfalso
        rw [Bool.not_eq_true', Bool.and_eq_false_iff, Bool.and_eq_false_iff] at hnot
        simp only [decide_eq_false_iff_not, List.all_eq_false, Bool.or_eq_true, decide_eq_true_eq] at hnot
        obtain (hnot | hnot) | ⟨a, ha, hnot⟩ := hnot
        · omega
        · omega
        · exact hnot (hout a ha)
    | cons r A =>
      obtain ⟨rfl, rfl⟩ := List.cons.inj hps
      rw [extent_cons] at hstart hout
      rw [List.cons_append, extent_cons] at hstop hout
      refine ih hrest rfl (by omega) (by omega) fun a ha => ?_
      have := hout a ha
      omega

theorem AttributeGroup.tidy_of_tidyFrom {g : AttributeGroup} (h : g.tidyFrom 0 (cut source) = true) :
    g.Tidy source := by
  intro A p R hcut hstart hstop hout
  exact isFiller_of_tidyFrom h hcut (by omega) (by omega) fun a ha => by have := hout a ha; omega

/-! ## §4 Places -/

variable {s s' : Span} {i' e' lo hi : Nat} {A R : List Piece} {p : Piece} {g : AttributeGroup}
  {a : Attribute} {as bs : List Attribute}

theorem start_le_of_le (hl : tokenize source = .ok l) {u v : Token} (hu : l.tokens[i]? = some u)
    (hv : l.tokens[j]? = some v) (h : i ≤ j) : u.span.start ≤ v.span.start := by
  obtain rfl | hlt := Nat.eq_or_lt_of_le h
  · obtain rfl := Option.some.inj (hu.symm.trans hv)
    exact Nat.le_refl _
  · exact (start_lt hl hu hv hlt).le

/-- A token is one of those before a place if it ends before the place. -/
theorem lt_countIn_iff (hl : tokenize source = .ok l) (hcut : cut source = P ++ R) {u : Token}
    (hu : l.tokens[i]? = some u) : i < countIn P ↔ u.span.stop ≤ Reading.extent P := by
  obtain ⟨hbefore, hafter⟩ := span_of_tokenize hl hcut hu
  rw [length_tokensIn] at hbefore hafter
  refine ⟨hbefore, fun hle => ?_⟩
  by_contra hge
  have := hafter (Nat.le_of_not_lt hge)
  have := token_lt hl hu
  omega

/-- It is one of those after the place if it starts there. -/
theorem countIn_le_iff (hl : tokenize source = .ok l) (hcut : cut source = P ++ R) {u : Token}
    (hu : l.tokens[i]? = some u) : countIn P ≤ i ↔ Reading.extent P ≤ u.span.start := by
  obtain ⟨hbefore, hafter⟩ := span_of_tokenize hl hcut hu
  rw [length_tokensIn] at hbefore hafter
  refine ⟨hafter, fun hle => ?_⟩
  by_contra hlt
  have := hbefore (Nat.lt_of_not_le hlt)
  have := token_lt hl hu
  omega

/-- A span that begins after another is made up of later tokens. -/
theorem Covers.lt_of_stop_le (hl : tokenize source = .ok l) (h : Covers l s i e) (h' : Covers l s' i' e')
    (hle : s.stop ≤ s'.start) : e < i' := by
  obtain ⟨u, hu, hstop⟩ := h.last
  obtain ⟨v, hv, hstart⟩ := h'.first
  by_contra hlt
  have := start_le_of_le hl hv hu (Nat.le_of_not_lt hlt)
  have := token_lt hl hu
  omega

/-- The tokens that a span is made up of are told by where it begins and ends. -/
theorem Covers.eq (hl : tokenize source = .ok l) (h : Covers l s i e) (h' : Covers l s i' e') :
    i = i' ∧ e = e' := by
  obtain ⟨u, hu, hstart⟩ := h.first
  obtain ⟨v, hv, hstart'⟩ := h'.first
  obtain ⟨w, hw, hstop⟩ := h.last
  obtain ⟨z, hz, hstop'⟩ := h'.last
  constructor
  · obtain hlt | heq | hlt := Nat.lt_trichotomy i i'
    · have := start_lt hl hu hv hlt
      omega
    · exact heq
    · have := start_lt hl hv hu hlt
      omega
  · obtain hlt | heq | hlt := Nat.lt_trichotomy e e'
    · have := Source.stop_le_start hl hw hz hlt
      have := token_lt hl hz
      omega
    · exact heq
    · have := Source.stop_le_start hl hz hw hlt
      have := token_lt hl hw
      omega

/-- A piece that stands before a token ends before it. -/
theorem prefix_of_le {C A' R' : List Piece} {p' q : Piece} {kind : TokenKind} (h : A ++ [q] <+: C)
    (h' : C = A' ++ p' :: R') (hp' : p'.kind = .token kind) (hle : countIn (A ++ [q]) ≤ countIn A') :
    A ++ [q] <+: A' := by
  obtain hlen | hlen := Nat.lt_or_ge A'.length (A ++ [q]).length
  · exfalso
    have hpre := List.prefix_of_prefix_length_le (show A' ++ [p'] <+: C from ⟨R', by rw [h']; simp⟩) h
      (by simp only [List.length_append, List.length_singleton] at hlen ⊢; omega)
    have := countIn_le_of_prefix hpre
    rw [countIn_append, countIn_singleton hp'] at this
    omega
  · exact List.prefix_of_prefix_length_le h ⟨p' :: R', h'.symm⟩ hlen

theorem extent_le_of_prefix {A A' : List Piece} (h : A <+: A') : Reading.extent A ≤ Reading.extent A' := by
  obtain ⟨z, rfl⟩ := h
  rw [extent_append]
  exact Nat.le_add_right _ _

/-- Where a piece stands that comes after a token and before another. -/
theorem extent_between (hl : tokenize source = .ok l) (hcut : cut source = A ++ p :: R) {u v : Token}
    (hu : l.tokens[e]? = some u) (hv : l.tokens[j]? = some v) (hlow : e < countIn A)
    (hhigh : countIn (A ++ [p]) ≤ j) :
    u.span.stop ≤ Reading.extent A ∧ Reading.extent (A ++ [p]) ≤ v.span.start := by
  obtain ⟨B, q, S, hcutB, -, -, rfl, -, hstop⟩ := exists_piece hl hu
  obtain ⟨B', q', S', hcutB', hq', -, rfl, hstart, -⟩ := exists_piece hl hv
  constructor
  · rw [← hstop]
    exact extent_le_of_prefix
      (prefix_of_count (C := cut source) ⟨S, by rw [hcutB]; simp⟩ ⟨p :: R, hcut.symm⟩ hlow)
  · rw [← hstart]
    exact extent_le_of_prefix (prefix_of_le (C := cut source) ⟨R, by rw [hcut]; simp⟩ hcutB' hq' hhigh)

/-! ## §5 Gaps -/

namespace AttributeGroup

variable {u v : Token}

/-- Two tokens of a group that none of its attributes stands between. -/
structure Gap (l : TokenSequence) (g : AttributeGroup) (o c e j : Nat) : Prop where
  low : o ≤ e
  high : j ≤ c
  clear : ∃ u v, l.tokens[e]? = some u ∧ l.tokens[j]? = some v ∧
    ∀ a ∈ g.attributes, v.span.start ≤ a.span.start ∨ a.span.stop ≤ u.span.stop

/-- Between what stands before some attributes and after the others there is a gap. -/
theorem gap_of_split (hl : tokenize source = .ok l) (hg : GroupAt l source g o c)
    (hsplit : g.attributes = as ++ bs) (hu : l.tokens[e]? = some u) (hv : l.tokens[j]? = some v)
    (has : ∀ a ∈ as.getLast?, a.span.stop ≤ u.span.stop) (hbs : ∀ b ∈ bs.head?, v.span.start ≤ b.span.start)
    (ho : o ≤ e) (hj : j ≤ c) : Gap l g o c e j := by
  refine ⟨ho, hj, u, v, hu, hv, ?_⟩
  have horder := AttributeList.attributes_order hl hg
  have hlt : ∀ a ∈ g.attributes, a.span.start < a.span.stop := fun a ha =>
    (AttributeList.attributePlaced hl hg ha).lt
  rw [hsplit] at horder hlt ⊢
  obtain ⟨horder₁, horder₂, -⟩ := List.pairwise_append.mp horder
  intro a ha
  obtain ha | ha := List.mem_append.mp ha
  · refine .inr ?_
    obtain rfl | ⟨as', x, rfl⟩ := List.eq_nil_or_concat as
    · cases ha
    · rw [List.concat_eq_append] at *
      have hx := has x (by simp)
      obtain ha | ha := List.mem_append.mp ha
      · have := (List.pairwise_append.mp horder₁).2.2 a ha x (by simp)
        have := hlt x (by simp)
        omega
      · obtain rfl := List.mem_singleton.mp ha
        exact hx
  · refine .inl ?_
    cases bs with
    | nil => cases ha
    | cons b bs =>
      have hb := hbs b rfl
      obtain rfl | ha := List.mem_cons.mp ha
      · exact hb
      · have := (List.pairwise_cons.mp horder₂).1 a ha
        have := hlt b (by simp)
        omega

/-- Where an attribute of a group stands. -/
theorem exists_occupied_of_mem (hn : l.Nested) (hg : GroupAt l source g o c) (ha : a ∈ g.attributes) :
    ∃ i e t, l.tokens[i]? = some t ∧ t.kind = .name ∧ a = (attributeAt l source i t).1 ∧
      Occupies l source i e t ∧ o < i ∧ i ≤ e ∧ e < c := by
  obtain ⟨as, bs, hsplit⟩ := List.append_of_mem ha
  rw [hg.attributes] at hsplit
  obtain ⟨i, t, hwalk, hi, ht, hname, rfl, -⟩ := exists_walk hsplit
  have := hwalk.le
  obtain ⟨e, he, hie, hec⟩ := exists_occupied source hn hg.partner (by omega) hi ht hname
  exact ⟨i, e, t, ht, hname, rfl, he, by omega, hie, hec⟩

/-- A token of a tidy group is a comma, or a part of an attribute. -/
theorem Tidy.comma_or_attribute (htidy : g.Tidy source) (hl : tokenize source = .ok l)
    (hg : GroupAt l source g o c) {q : Nat} (ho : o < q) (hc : q < c) :
    l.kindAt q = some .comma ∨ ∃ a ∈ g.attributes, ∃ i e t, l.tokens[i]? = some t ∧ t.kind = .name ∧
      a = (attributeAt l source i t).1 ∧ Occupies l source i e t ∧ i ≤ q ∧ q ≤ e := by
  have hn := nested_of_tokenize hl
  have hsize := hn.lt_size hg.partner
  obtain ⟨v, hv⟩ : ∃ v, l.tokens[q]? = some v := ⟨_, Array.getElem?_eq_getElem (by omega)⟩
  obtain ⟨A, p, R, hcut, hp, -, -, hstart, hstop⟩ := exists_piece hl hv
  obtain ⟨u, hu, hgstart⟩ := hg.covers.first
  obtain ⟨w, hw, hgstop⟩ := hg.covers.last
  have := start_lt hl hu hv ho
  have := stop_le_start hl hv hw hc
  have := token_lt hl hw
  by_cases houtside : ∀ a ∈ g.attributes, Reading.extent (A ++ [p]) ≤ a.span.start ∨
      a.span.stop ≤ Reading.extent A
  · have hfiller := htidy A p R hcut (by omega) (by omega) houtside
    rw [Piece.isFiller, hp] at hfiller
    exact .inl (by rw [kindAt, hv, Option.map_some, of_decide_eq_true hfiller])
  · push Not at houtside
    obtain ⟨a, ha, hlow, hhigh⟩ := houtside
    obtain ⟨i, e, t, ht, hname, rfl, he, -⟩ := exists_occupied_of_mem hn hg ha
    obtain ⟨t', ht', hfirst⟩ := he.covers.first
    obtain ⟨t'', ht'', hlast⟩ := he.covers.last
    refine .inr ⟨_, ha, i, e, t, ht, hname, rfl, he, ?_, ?_⟩
    · by_contra hlt
      have := stop_le_start hl hv ht' (by omega)
      omega
    · by_contra hlt
      have := stop_le_start hl ht'' hv (by omega)
      omega

/-- What stands in a gap of a tidy group is filler. -/
theorem Tidy.filler (htidy : g.Tidy source) (hl : tokenize source = .ok l) (hg : GroupAt l source g o c)
    (hgap : Gap l g o c e j) (hcut : cut source = A ++ p :: R) (hlow : e < countIn A)
    (hhigh : countIn (A ++ [p]) ≤ j) : p.isFiller = true := by
  obtain ⟨u, v, hu, hv, hclear⟩ := hgap.clear
  obtain ⟨hstart, hstop⟩ := extent_between hl hcut hu hv hlow hhigh
  obtain ⟨x, hx, hgstart⟩ := hg.covers.first
  obtain ⟨y, hy, hgstop⟩ := hg.covers.last
  have := start_le_of_le hl hx hu hgap.low
  have := start_le_of_le hl hv hy hgap.high
  have := token_lt hl hu
  have := token_lt hl hy
  exact htidy A p R hcut (by omega) (by omega) fun a ha => (hclear a ha).imp hstop.trans (·.trans hstart)

/-- The tokens there are commas. -/
theorem Tidy.comma (htidy : g.Tidy source) (hl : tokenize source = .ok l) (hg : GroupAt l source g o c)
    (hgap : Gap l g o c e j) {q : Nat} (hlow : e < q) (hhigh : q < j) : l.kindAt q = some .comma := by
  obtain ⟨-, v, -, hv, -⟩ := hgap.clear
  have hsize := (Array.getElem?_eq_some_iff.mp hv).1
  obtain ⟨w, hw⟩ : ∃ w, l.tokens[q]? = some w := ⟨_, Array.getElem?_eq_getElem (by omega)⟩
  obtain ⟨A, p, R, hcut, hp, -, rfl, -⟩ := exists_piece hl hw
  have hfiller := htidy.filler hl hg hgap hcut hlow (by
    rw [countIn_append, countIn_singleton hp]
    omega)
  rw [Piece.isFiller, hp] at hfiller
  rw [kindAt, hw, Option.map_some, of_decide_eq_true hfiller]

/-- Attributes that name targets, and what stands between them, hold no brackets but those that pair among
themselves. -/
theorem Tidy.stretch (htidy : g.Tidy source) (hl : tokenize source = .ok l) (hg : GroupAt l source g o c)
    (hlo : o < lo) (hhi : hi ≤ c) (hpart : ∀ a ∈ g.attributes, ∀ i e, Covers l a.span i e →
      e < lo ∨ hi ≤ i ∨ lo ≤ i ∧ e < hi ∧ ∃ imports target, a.target imports = some target) :
    (∀ q, lo ≤ q → q < hi → ∃ kind ∈ attributeKinds, l.kindAt q = some kind) ∧ l.Enclosed lo hi := by
  have hn := nested_of_tokenize hl
  suffices hpair : ∀ q, lo ≤ q → q < hi → (∃ kind ∈ attributeKinds, l.kindAt q = some kind) ∧
      ∀ r, l.partnerAt q = some r → lo ≤ r ∧ r < hi from
    ⟨fun q hlow hhigh => (hpair q hlow hhigh).1, fun q r hlow hhigh hr => (hpair q hlow hhigh).2 r hr⟩
  intro q hlow hhigh
  obtain hcomma | ⟨a, ha, i, e, t, ht, hname, rfl, he, hiq, hqe⟩ :=
    htidy.comma_or_attribute hl hg (Nat.lt_of_lt_of_le hlo hlow) (Nat.lt_of_lt_of_le hhigh hhi)
  · refine ⟨⟨.comma, by decide, hcomma⟩, fun r hr => ?_⟩
    rw [partnerAt_of_plain hn hcomma rfl rfl] at hr
    cases hr
  · obtain hout | hout | ⟨hi, he', imports, target, htarget⟩ := hpart _ ha i e he.covers
    · omega
    · omega
    · refine ⟨he.kinds hl ht hname htarget hiq hqe, fun r hr => ?_⟩
      have := he.enclosed q r hiq (Nat.lt_succ_of_le hqe) hr
      omega

end AttributeGroup

end Crosslink.Source
