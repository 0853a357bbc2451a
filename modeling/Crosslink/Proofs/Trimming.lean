import Crosslink.Proofs.Bypassing
import Crosslink.Proofs.Carving
import Crosslink.Proofs.Renaming
import Crosslink.Proofs.Retracing
import Crosslink.Proofs.Thinning

/-!
# Attributes taken out of a group

An attribute that another follows is taken out of a group up to where the next one starts, and those that
are left last from where the one before them ends. What is taken out is a block, the source is cut as
before around it, and the group that is left has the other attributes.

* §1 `Excision`, pieces that can be taken out of a source.
* §2 `exists_attributes_front` and `attributes_back`, what is read of the group that is left.
* §3 `exists_trim_front` and `exists_trim_back`, the pieces that go with attributes.
* §4 `Trim.tidy`, the group that is left can be taken out of again.
-/

namespace Crosslink.Source

open TokenSequence

variable {source out : Text} {l l' : TokenSequence} {P M Q A R : List Piece} {p : Piece} {i j o c e lo hi : Nat}
  {t u v : Token} {g : AttributeGroup} {a : Attribute} {as bs : List Attribute}

/-! ## §1 Pieces that are taken out -/

/-- The pieces from one token up to another. -/
theorem exists_pieces_from (hl : tokenize source = .ok l) (ht : l.tokens[i]? = some t)
    (hv : l.tokens[j]? = some v) (hij : i < j) :
    ∃ A p M R, cut source = A ++ (p :: M ++ R) ∧ p.kind = .token t.kind ∧ countIn A = i ∧
      countIn A + countIn (p :: M) = j ∧ Reading.extent A = t.span.start ∧
      Reading.extent (A ++ p :: M) = v.span.start := by
  obtain ⟨A, p, R, hcutA, hp, -, hA, hstart, -⟩ := exists_piece hl ht
  obtain ⟨B, q, S, hcutB, -, -, hB, hstart', -⟩ := exists_piece hl hv
  obtain ⟨M, rfl⟩ : A ++ [p] <+: B :=
    prefix_of_count (C := cut source) ⟨R, by rw [hcutA]; simp⟩ ⟨q :: S, hcutB.symm⟩ (by omega)
  rw [List.append_assoc A, List.singleton_append] at hB hstart'
  exact ⟨A, p, M, q :: S, by rw [hcutB]; simp, hp, hA, by rw [← countIn_append, hB], hstart, hstart'⟩

/-- The pieces after one token up to where another ends. -/
theorem exists_pieces_after (hl : tokenize source = .ok l) (hu : l.tokens[i]? = some u)
    (hv : l.tokens[j]? = some v) (hij : i < j) :
    ∃ A p r M R, cut source = A ++ p :: (r :: M ++ R) ∧ p.kind = .token u.kind ∧ p.text = u.text ∧
      countIn (A ++ [p]) = i + 1 ∧ countIn (A ++ [p] ++ r :: M) = j + 1 ∧
      Reading.extent (A ++ [p]) = u.span.stop ∧ Reading.extent (A ++ [p] ++ r :: M) = v.span.stop := by
  obtain ⟨A, p, R, hcutA, hp, htext, hA, -, hstop⟩ := exists_piece hl hu
  obtain ⟨B, q, S, hcutB, hq, -, hB, -, hstop'⟩ := exists_piece hl hv
  obtain ⟨D, rfl⟩ : A ++ [p] <+: B :=
    prefix_of_count (C := cut source) ⟨R, by rw [hcutA]; simp⟩ ⟨q :: S, hcutB.symm⟩ (by omega)
  obtain ⟨r, M, hM⟩ : ∃ r M, D ++ [q] = r :: M := List.exists_cons_of_ne_nil (by simp)
  rw [List.append_assoc _ D, hM] at hstop'
  refine ⟨A, p, r, M, S, ?_, hp, htext, ?_, ?_, hstop, hstop'⟩
  · rw [hcutB, ← hM]
    simp
  · rw [countIn_append, countIn_singleton hp, hA]
  · rw [← hM, ← List.append_assoc, countIn_append, countIn_singleton hq, hB]

/-- A source goes on after pieces that do not hold all of its tokens. -/
theorem exists_cons_of_token (hl : tokenize source = .ok l) (hcut : cut source = P ++ R)
    (hu : l.tokens[i]? = some u) (hle : countIn P ≤ i) : ∃ q Q, R = q :: Q := by
  refine List.exists_cons_of_ne_nil ?_
  rintro rfl
  obtain ⟨A, p, S, hcutA, hp, -, hA, -⟩ := exists_piece hl hu
  have hpre : countIn (A ++ [p]) ≤ countIn P :=
    countIn_le_of_prefix ⟨S, by rw [← List.append_nil P, ← hcut, hcutA]; simp⟩
  rw [countIn_append, countIn_singleton hp] at hpre
  omega

/-- The text of a source of which pieces are taken out, before and after. -/
theorem texts_of_cut (hcut : cut source = P ++ (M ++ Q)) :
    source = P.flatMap Piece.text ++ (M.flatMap Piece.text ++ Q.flatMap Piece.text) ∧
      (P ++ Q).flatMap Piece.text = P.flatMap Piece.text ++ Q.flatMap Piece.text := by
  rw [← List.flatMap_append, ← List.flatMap_append, ← hcut, cut_flatten]
  exact ⟨rfl, List.flatMap_append⟩

/-- Pieces that can be taken out of a source: they are a block without braces and semicolons, around which the
source is cut as before. -/
structure Excision (source : Text) (l : TokenSequence) (P M Q : List Piece) : Prop where
  cut : cut source = P ++ (M ++ Q)
  without : Source.cut ((P ++ Q).flatMap Piece.text) = P ++ Q
  block : Block M
  unbraced : Unbraced l (countIn P) (countIn M)
  flush : (∀ kind ∈ [TokenKind.name, .openBrace], l.kindAt (countIn P) ≠ some kind ∧
      l.kindAt (countIn P + countIn M) ≠ some kind) ∨ ∀ j, j + 1 = countIn P → l.kindAt j ≠ some .name

/-- What is left is read. -/
theorem Excision.exists_read (h : Excision source l P M Q) (hl : tokenize source = .ok l) :
    ∃ l' block, tokenize ((P ++ Q).flatMap Piece.text) = .ok l' ∧
      Inserted (countIn P) (countIn M) block (P.flatMap Piece.text) (M.flatMap Piece.text) l' l ∧
      Flush l' l (countIn P) := by
  obtain ⟨l', block, hl', hins⟩ := exists_without_block h.without h.cut h.block hl
  replace hins : Inserted (countIn P) (countIn M) block _ _ l' l := hins
  refine ⟨l', block, hl', hins, ?_⟩
  refine h.flush.imp (fun hkinds kind hkind => ?_) fun hnone j hj => ?_
  · obtain ⟨hfirst, hnext⟩ := hkinds kind hkind
    have hsame := hins.kindAt_lift (countIn P)
    rw [lift_of_le (Nat.le_refl _)] at hsame
    exact ⟨hsame ▸ hnext, hfirst⟩
  · have hsame := hins.kindAt_lift j
    rw [lift_of_lt (by omega)] at hsame
    exact hsame ▸ hnone j hj

/-- The tokens that attributes and what stands between them are made up of are taken out. -/
theorem excision_of_stretch (hl : tokenize source = .ok l) (hcut : cut source = P ++ (M ++ Q))
    (hwithout : cut ((P ++ Q).flatMap Piece.text) = P ++ Q)
    (hkinds : ∀ q, countIn P ≤ q → q < countIn P + countIn M →
      ∃ kind ∈ AttributeGroup.attributeKinds, l.kindAt q = some kind)
    (henclosed : l.Enclosed (countIn P) (countIn P + countIn M))
    (hflush : (∀ kind ∈ [TokenKind.name, .openBrace], l.kindAt (countIn P) ≠ some kind ∧
      l.kindAt (countIn P + countIn M) ≠ some kind) ∨ ∀ j, j + 1 = countIn P → l.kindAt j ≠ some .name) :
    Excision source l P M Q := by
  refine ⟨hcut, hwithout, block_of_enclosed hl hcut henclosed, fun j hj kind hkind he => ?_, hflush⟩
  obtain ⟨kind', hmem, hkind'⟩ := hkinds (countIn P + j) (by omega) (by omega)
  obtain rfl := Option.some.inj (he.symm.trans hkind')
  have hnot : ∀ kind ∈ AttributeGroup.attributeKinds,
      kind ∉ [TokenKind.openBrace, .closeBrace, .semicolon] := by decide
  exact hnot _ hmem hkind

namespace AttributeGroup

/-! ## §2 What is read of the group -/

theorem nextComma_of_lt {c' : Nat} (h : nextComma l c i < c') (hle : c' ≤ c) :
    nextComma l c' i = nextComma l c i := by
  fun_induction nextComma l c i with
  | case1 i hi ih =>
    simp only [Bool.and_eq_true, decide_eq_true_eq] at hi
    have := le_nextComma l c (l.lastOf i + 1)
    have := l.le_lastOf i
    rw [nextComma, if_pos]
    · exact ih h
    · rw [Bool.and_eq_true]
      exact ⟨decide_eq_true (by omega), hi.2⟩
  | case2 i hi =>
    rw [nextComma, if_neg]
    simp only [Bool.and_eq_true, decide_eq_true_eq] at hi ⊢
    exact fun hlt => hi ⟨by omega, hlt.2⟩

/-- A walk up to a token before the end of a group is one up to it if the group ends earlier. -/
theorem Walk.of_close {c' : Nat} (h : Walk l source c i as j) (hj : j ≤ c') (hle : c' ≤ c) :
    Walk l source c' i as j := by
  induction h with
  | nil => exact .nil _
  | skip lt token other rest ih =>
    have := rest.le
    exact .skip (by omega) token other (ih hj)
  | @named i j t as lt token name rest ih =>
    have := rest.le
    have := lt_attributeAt l source i t
    have := le_nextComma l c (attributeAt l source i t).2
    refine .named (by omega) token name ?_
    rw [nextComma_of_lt (by omega) hle]
    exact ih hj

/-- The last attribute that a walk reads ends before the comma before the token it comes to. -/
theorem Walk.exists_last (h : Walk l source c i as j) (hn : l.Nested) (hc : l.partnerAt o = some c) (ho : o < i)
    (ha : as.getLast? = some a) : ∃ e, o < e ∧ e + 1 < j ∧ a.span.stop = l.stopAt e := by
  induction h with
  | nil => cases ha
  | skip lt token other rest ih => exact ih (by omega) ha
  | @named i j t as lt token name rest ih =>
    have hle := rest.le
    have hnext := lt_attributeAt l source i t
    have hcomma := le_nextComma l c (attributeAt l source i t).2
    cases as with
    | nil =>
      rw [List.getLast?_singleton] at ha
      obtain rfl := Option.some.inj ha
      obtain ⟨e, he, hie, -⟩ := exists_occupied source hn hc ho lt token name
      obtain ⟨u, hu, hstop⟩ := he.covers.last
      have := he.next
      exact ⟨e, by omega, by omega, by rw [stopAt_eq hu, hstop]⟩
    | cons b as =>
      rw [List.getLast?_cons_cons] at ha
      exact ih (by omega) ha

/-- No attribute is read where there is no name. -/
theorem attributesFrom_of_no_name (h : ∀ q, i ≤ q → q < c → l.kindAt q ≠ some .name) :
    attributesFrom l source c i = [] := by
  fun_induction attributesFrom l source c i with
  | case1 i hi htok => rfl
  | case2 i hi t ht hname r ih =>
    exact absurd (by rw [kindAt, ht, Option.map_some, hname]) (h i (Nat.le_refl i) hi)
  | case3 i hi t ht hname ih => exact ih fun q hq hqc => h q (by omega) hqc
  | case4 i hi => rfl

section Left

variable {k n : Nat} {block : Array Token} {x m y : Text} {c' : Nat}
  (h : Inserted k n block x m l' l) (hsource : source = x ++ (m ++ y)) (hout : out = x ++ y)

variable (out) in
include h in
/-- A group that some tokens are taken out of is read again. -/
theorem exists_parse_left (hg : GroupAt l source g o c) (ho : o < k) (hc : k + n ≤ c) :
    ∃ c' g', c' + n = c ∧ k ≤ c' ∧ l'.partnerAt o = some c' ∧ AttributeGroup.parse l' out o = some g' ∧
      g'.attributes = attributesFrom l' out c' (o + 1) ∧ g'.span.start = g.span.start ∧
      g'.span.stop + Text.width m = g.span.stop ∧ g'.next + n = g.next := by
  have hpartner := h.partnerAt_lift o
  rw [lift_of_lt ho, hg.partner] at hpartner
  obtain ⟨c', hc', hlift⟩ := Option.map_eq_some_iff.mp hpartner.symm
  have hclose : c' + n = c ∧ k ≤ c' := by
    unfold lift at hlift
    split at hlift <;> omega
  obtain ⟨t, ht, hpart⟩ := partnerAt_eq_some.mp hc'
  have hkind : t.kind = .attrOpen := by
    have hsame := h.kindAt_lift o
    rw [lift_of_lt ho, hg.kind, kindAt, ht] at hsame
    exact (Option.some.inj hsame).symm
  refine ⟨c', ⟨⟨t.span.start, l'.stopAt c'⟩, attributesFrom l' out c' (o + 1), c' + 1⟩, hclose.1, hclose.2,
    hc', ?_, rfl, ?_, ?_, ?_⟩
  · rw [AttributeGroup.parse, ht]
    simp only [Option.bind_eq_bind, Option.bind_some, hkind, ne_eq, not_true_eq_false, if_false, hpart]
  · obtain ⟨u, hu, hstart⟩ := hg.covers.first
    have hsame := (h.copied_before (b := [])).token o (Nat.zero_le o) ho
    rw [Nat.add_zero, hu, ht] at hsame
    obtain rfl := Option.some.inj hsame
    exact hstart
  · obtain ⟨u, hu, hstop⟩ := hg.covers.last
    have hsize := h.nested.lt_size hc'
    have hsame := (h.copied_after (b := [])).stopAt hclose.2 hsize
    rw [hclose.1, stopAt_eq hu, hstop] at hsame
    exact hsame.symm
  · rw [hg.next]
    dsimp only
    omega

include h hsource hout in
/-- The attributes of a group that loses some tokens in front of one of them. -/
theorem exists_attributes_front (hg : GroupAt l source g o c) (hc' : l'.partnerAt o = some c')
    (hc : c' + n = c) (hk : k ≤ c') (hwalk : Walk l source c (o + 1) as k)
    (hrest : attributesFrom l source c (k + n) = bs) :
    ∃ bs', attributesFrom l' out c' (o + 1) = as ++ bs' ∧ bs = bs'.map (Attribute.shift (Text.width m)) := by
  subst hsource hout
  have hle := hwalk.le
  have hfront := hwalk.copied (h.copied_back (b := y)) h.nested' (Nat.zero_le _) (Nat.le_refl k)
  have hid : Attribute.shift 0 = id := funext attribute_shift_zero
  rw [Nat.add_zero c, Nat.add_zero (o + 1), Nat.add_zero k, hid, List.map_id] at hfront
  have hafter := (h.copied_after (b := y)).attributesFrom h.nested hc' (show o < k by omega) (Nat.le_refl k)
    (h.nested.lt_size hc')
  rw [hc, hrest] at hafter
  exact ⟨_, (hfront.of_close hk (by omega)).attributesFrom_eq, hafter⟩

include h hsource hout in
/-- The attributes of a group that loses those at its end. -/
theorem attributes_back (hc : c' + n = c) (hk : k ≤ c') (hwalk : Walk l source c (o + 1) as i)
    (ht : l.tokens[i]? = some t) (hname : t.kind = .name) (he : Occupies l source i e t) (hie : i ≤ e)
    (hend : e + 1 = k) (hlist : l.isKind (k + n) .openParen = false)
    (hnone : ∀ q, k + n ≤ q → q < c → l.kindAt q ≠ some .name) :
    attributesFrom l' out c' (o + 1) = as ++ [(attributeAt l source i t).1] := by
  subst hsource hout
  have hback := h.copied_back (b := y)
  have hle := hwalk.le
  have hfront := hwalk.copied hback h.nested' (Nat.zero_le _) (show i ≤ k by omega)
  have hid : Attribute.shift 0 = id := funext attribute_shift_zero
  rw [Nat.add_zero c, Nat.add_zero (o + 1), Nat.add_zero i, hid, List.map_id] at hfront
  have ht' := hback.token i (Nat.zero_le i) (by omega)
  rw [Nat.add_zero, ht, Option.map_some] at ht'
  have hopen : i + 1 < k ∨ l.isKind (i + 1) .openParen = false ∧ l'.isKind (i + 1 + 0) .openParen = false := by
    obtain hlt | heq := Nat.lt_or_eq_of_le (show i + 1 ≤ k by omega)
    · exact .inl hlt
    · refine .inr ⟨Bool.eq_false_iff.mpr fun hopen => ?_, ?_⟩
      · obtain ⟨q, hq, hlt⟩ := partner_lt h.nested' hopen
        have := he.next
        rw [attributeAt_of_list _ t hopen hq hlt] at this
        dsimp only at this
        omega
      · have hsame := h.kindAt_lift k
        rw [lift_of_le (Nat.le_refl k)] at hsame
        rw [Nat.add_zero, heq, isKind, ← hsame]
        exact hlist
  have hplace : (t.carried (unlift k n) (fun _ => Span.shift 0) i).span.stop = t.span.stop + 0 := rfl
  have hattribute := hback.attributeAt_named h.nested' (Nat.zero_le _) (by rw [he.next, hend]) hopen hplace
  rw [Nat.add_zero i, Nat.add_zero, Nat.add_zero, he.next] at hattribute
  rw [(hfront.of_close (by omega) (by omega)).attributesFrom_eq, attributesFrom, if_pos (by omega), ht']
  dsimp only
  rw [if_pos (show (t.carried (unlift k n) (fun _ => Span.shift 0) i).kind = .name from hname), hattribute,
    attributesFrom_of_no_name fun q hq hqc => ?_]
  · obtain ⟨hnamed, hspan⟩ := attributeAt_name l (x ++ (m ++ y)) i t
    refine congrArg (as ++ [·]) ?_
    obtain ⟨u, hu, hstart⟩ := he.covers.first
    obtain rfl := Option.some.inj (ht.symm.trans hu)
    have hargs : Argument.shift 0 = id := rfl
    generalize (attributeAt l (x ++ (m ++ y)) i t).1 = a at hnamed hspan hstart ⊢
    obtain ⟨name, nameSpan, ⟨start, stop⟩, arguments⟩ := a
    simp only at hnamed hspan hstart
    subst hnamed hspan hstart
    simp [Token.carried, hargs]
  · have hcomma := le_nextComma l' c' (e + 1)
    dsimp only at hq
    have hsame := h.kindAt_lift q
    rw [lift_of_le (by omega)] at hsame
    rw [← hsame]
    exact hnone (q + n) (by omega) (by omega)

end Left

/-! ## §3 Attributes that are taken out -/

/-- A group of another source is this one, but that it has the attributes `as` and `bs` only and lost `n`
tokens and `w` bytes between them. -/
structure Trimmed (g g' : AttributeGroup) (as bs : List Attribute) (n w : Nat) : Prop where
  attributes : ∃ bs', g'.attributes = as ++ bs' ∧ bs = bs'.map (Attribute.shift w)
  start : g'.span.start = g.span.start
  stop : g'.span.stop + w = g.span.stop
  next : g'.next + n = g.next

/-- Pieces that are taken out of a group of which the attributes `cs` go with them. -/
structure Trim (source : Text) (l : TokenSequence) (g : AttributeGroup) (o c : Nat) (as cs bs : List Attribute)
    (P M Q : List Piece) : Prop extends Excision source l P M Q where
  split : g.attributes = as ++ (cs ++ bs)
  opener : o < countIn P
  close : countIn P + countIn M ≤ c
  before : ∀ a ∈ as, a.span.stop ≤ Reading.extent P
  dropped : ∀ a ∈ cs, Reading.extent P ≤ a.span.start ∧ a.span.stop ≤ Reading.extent (P ++ M)
  after : ∀ a ∈ bs, Reading.extent (P ++ M) ≤ a.span.start
  reads : ∀ l' block, tokenize ((P ++ Q).flatMap Piece.text) = .ok l' →
    Inserted (countIn P) (countIn M) block (P.flatMap Piece.text) (M.flatMap Piece.text) l' l →
    ∃ g', AttributeGroup.parse l' ((P ++ Q).flatMap Piece.text) o = some g' ∧
      Trimmed g g' as bs (countIn M) (Reading.extent M)

/-- The attributes before and after one of a group. -/
theorem order_of_split (hl : tokenize source = .ok l) (hg : GroupAt l source g o c)
    (hsplit : g.attributes = as ++ a :: bs) :
    (∀ x ∈ as, x.span.stop ≤ a.span.start) ∧ ∀ x ∈ bs, a.span.stop ≤ x.span.start := by
  have horder := AttributeList.attributes_order hl hg
  rw [hsplit] at horder
  obtain ⟨-, hafter, hacross⟩ := List.pairwise_append.mp horder
  exact ⟨fun x hx => hacross x hx a List.mem_cons_self, (List.pairwise_cons.mp hafter).1⟩

/-- Pieces of a tidy group that some attributes, all of which name targets, stand in and the others do not. -/
theorem trim_of_pieces {cs : List Attribute} (hl : tokenize source = .ok l) (hg : GroupAt l source g o c)
    (htidy : g.Tidy source) (hsplit : g.attributes = as ++ (cs ++ bs))
    (htarget : ∀ x ∈ cs, ∃ imports target, x.target imports = some target)
    (hcut : cut source = P ++ (M ++ Q)) (hwithout : cut ((P ++ Q).flatMap Piece.text) = P ++ Q)
    (hflush : (∀ kind ∈ [TokenKind.name, .openBrace], l.kindAt (countIn P) ≠ some kind ∧
      l.kindAt (countIn P + countIn M) ≠ some kind) ∨ ∀ j, j + 1 = countIn P → l.kindAt j ≠ some .name)
    (hopener : o < countIn P) (hclose : countIn P + countIn M ≤ c)
    (hbefore : ∀ x ∈ as, x.span.stop ≤ Reading.extent P)
    (hdropped : ∀ x ∈ cs, Reading.extent P ≤ x.span.start ∧ x.span.stop ≤ Reading.extent (P ++ M))
    (hafter : ∀ x ∈ bs, Reading.extent (P ++ M) ≤ x.span.start)
    (hreads : ∀ l' block, tokenize ((P ++ Q).flatMap Piece.text) = .ok l' →
      Inserted (countIn P) (countIn M) block (P.flatMap Piece.text) (M.flatMap Piece.text) l' l →
      ∃ g', AttributeGroup.parse l' ((P ++ Q).flatMap Piece.text) o = some g' ∧
        Trimmed g g' as bs (countIn M) (Reading.extent M)) : Trim source l g o c as cs bs P M Q := by
  have hcut' : cut source = (P ++ M) ++ Q := by rw [hcut, List.append_assoc]
  have hpart : ∀ x ∈ g.attributes, ∀ i e, Covers l x.span i e → e < countIn P ∨ countIn P + countIn M ≤ i ∨
      countIn P ≤ i ∧ e < countIn P + countIn M ∧ ∃ imports target, x.target imports = some target := by
    intro x hx i e hcovers
    obtain ⟨u, hu, hstart⟩ := hcovers.first
    obtain ⟨v, hv, hstop⟩ := hcovers.last
    rw [← countIn_append]
    rw [hsplit, List.mem_append, List.mem_append] at hx
    obtain hx | hx | hx := hx
    · exact .inl ((lt_countIn_iff hl hcut hv).mpr (hstop ▸ hbefore x hx))
    · obtain ⟨hlow, hhigh⟩ := hdropped x hx
      exact .inr (.inr ⟨(countIn_le_iff hl hcut hu).mpr (hstart ▸ hlow),
        (lt_countIn_iff hl hcut' hv).mpr (hstop ▸ hhigh), htarget x hx⟩)
    · exact .inr (.inl ((countIn_le_iff hl hcut' hu).mpr (hstart ▸ hafter x hx)))
  obtain ⟨hkinds, henclosed⟩ := htidy.stretch hl hg hopener hclose hpart
  exact ⟨excision_of_stretch hl hcut hwithout hkinds henclosed hflush, hsplit, hopener, hclose, hbefore,
    hdropped, hafter, hreads⟩

variable (source) in
/-- An attribute starts where its name does. -/
theorem start_attributeAt (hn : l.Nested) (hc : l.partnerAt o = some c) (ho : o < i) (hi : i < c)
    (ht : l.tokens[i]? = some t) (hname : t.kind = .name) :
    (attributeAt l source i t).1.span.start = t.span.start := by
  obtain ⟨e, he, -⟩ := exists_occupied source hn hc ho hi ht hname
  obtain ⟨u, hu, hstart⟩ := he.covers.first
  obtain rfl := Option.some.inj (ht.symm.trans hu)
  exact hstart.symm

/-- Before an attribute there is a gap from the end of the one before it, or from the bracket of the group. -/
theorem exists_gap_before (hl : tokenize source = .ok l) (hg : GroupAt l source g o c)
    (hsplit : g.attributes = as ++ bs) (hwalk : Walk l source c (o + 1) as i) (ht : l.tokens[i]? = some t)
    (hi : i ≤ c) (hbs : ∀ b ∈ bs.head?, t.span.start ≤ b.span.start) :
    ∃ e, Gap l g o c e i ∧ e < i ∧ (e = o ∨ e + 1 < i) := by
  have hn := nested_of_tokenize hl
  have hle := hwalk.le
  have hsize := hn.lt_size hg.partner
  obtain ⟨e, hoe, hei, hlast, has⟩ : ∃ e, o ≤ e ∧ e < i ∧ (e = o ∨ e + 1 < i) ∧
      ∀ a ∈ as.getLast?, a.span.stop ≤ l.stopAt e := by
    cases has : as.getLast? with
    | none => exact ⟨o, Nat.le_refl o, by omega, .inl rfl, by simp⟩
    | some a =>
      obtain ⟨e, hoe, hei, hstop⟩ := hwalk.exists_last hn hg.partner (Nat.lt_succ_self o) has
      refine ⟨e, hoe.le, by omega, .inr hei, fun b hb => ?_⟩
      obtain rfl := Option.some.inj hb
      exact hstop.le
  obtain ⟨u, hu⟩ : ∃ u, l.tokens[e]? = some u := ⟨_, Array.getElem?_eq_getElem (by omega)⟩
  rw [stopAt_eq hu] at has
  exact ⟨e, gap_of_split hl hg hsplit hu ht has hbs hoe hi, hei, hlast⟩

/-- What stands right before the token at the end of a gap ends by itself. -/
theorem Tidy.seals_before (htidy : g.Tidy source) (hl : tokenize source = .ok l) (hg : GroupAt l source g o c)
    (hgap : Gap l g o c e i) (hei : e < i) (hlast : e = o ∨ e + 1 < i) (hcut : cut source = A ++ p :: R)
    (hp : p.kind = .token t.kind) (hA : countIn A = i) : ∃ A₀ p₀, A = A₀ ++ [p₀] ∧ p₀.seals = true := by
  obtain rfl | ⟨A₀, p₀, rfl⟩ := List.eq_nil_or_concat A
  · rw [countIn, List.filterMap_nil, List.length_nil] at hA
    omega
  rw [List.concat_eq_append] at hcut hA
  refine ⟨A₀, p₀, List.concat_eq_append, ?_⟩
  have hcut₀ : cut source = A₀ ++ p₀ :: p :: R := by rw [hcut]; simp
  by_cases hbefore : e < countIn A₀
  · have hfiller := htidy.filler hl hg hgap hcut₀ hbefore hA.le
    rw [Piece.isFiller] at hfiller
    refine seals_of_next hcut₀ hp (fun k hk => ?_) (fun hk => ?_) fun d hk => ?_
    all_goals rw [hk] at hfiller
    · rw [of_decide_eq_true hfiller]
      rfl
    · cases hfiller
    · cases hfiller
  · -- the opening bracket
    rw [countIn_append] at hA
    obtain ⟨kind, hkind⟩ | hnone := token_or_none p₀
    · rw [countIn_singleton hkind] at hA
      obtain rfl : countIn A₀ = o := by omega
      have := kindAt_of_cut hl hcut₀ hkind
      rw [hg.kind] at this
      obtain rfl := Option.some.inj this
      rw [Piece.seals, hkind]
      rfl
    · rw [show countIn [p₀] = 0 by simp [countIn, hnone]] at hA
      omega

/-- The token right before it is no name. -/
theorem Tidy.no_name_before (htidy : g.Tidy source) (hl : tokenize source = .ok l) (hg : GroupAt l source g o c)
    (hgap : Gap l g o c e i) (hei : e < i) (hlast : e = o ∨ e + 1 < i) (hj : j + 1 = i) :
    l.kindAt j ≠ some .name := by
  intro hname
  by_cases hej : e < j
  · rw [htidy.comma hl hg hgap hej (by omega)] at hname
    cases hname
  · obtain rfl : j = o := by omega
    rw [hg.kind] at hname
    cases hname

/-- An attribute that names a target is taken out of a tidy group up to the next one. -/
theorem exists_trim_front {b : Attribute} {imports : Imports} {target : Target} (hl : tokenize source = .ok l)
    (hg : GroupAt l source g o c) (htidy : g.Tidy source) (hsplit : g.attributes = as ++ a :: b :: bs)
    (htarget : a.target imports = some target) :
    ∃ P M Q, Trim source l g o c as [a] (b :: bs) P M Q ∧ Reading.extent P = a.span.start ∧
      Reading.extent (P ++ M) = b.span.start := by
  have hn := nested_of_tokenize hl
  have hsplit₁ : g.attributes = as ++ ([a] ++ b :: bs) := hsplit
  have hsplit₂ : g.attributes = (as ++ [a]) ++ b :: bs := by rw [hsplit]; simp
  have hread := hsplit
  rw [hg.attributes] at hread
  obtain ⟨i, t, hwalk, hi, ht, hname, rfl, hrest⟩ := exists_walk hread
  obtain ⟨j, v, hwalk', hj, hv, hname', rfl, -⟩ :=
    exists_walk (show attributesFrom l source c _ = [] ++ b :: bs from hrest.symm)
  have hle := hwalk.le
  have hle' := hwalk'.le
  have hcomma := le_nextComma l c (attributeAt l source i t).2
  have hnext := lt_attributeAt l source i t
  have hstart := start_attributeAt source hn hg.partner (by omega) hi ht hname
  have hstart' := start_attributeAt source hn hg.partner (by omega) hj hv hname'
  obtain ⟨hbefore, hafter⟩ := order_of_split hl hg hsplit
  have hlater := (order_of_split hl hg hsplit₂).2
  have hltb := (AttributeList.attributePlaced hl hg (a := (attributeAt l source j v).1)
    (by rw [hsplit]; simp)).lt
  -- the pieces, and the one before them
  obtain ⟨P, p, M, Q, hcut, hp, hP, hcount, hextentP, hextentM⟩ := exists_pieces_from hl ht hv (by omega)
  obtain ⟨e, hgap, hei, hopen⟩ := exists_gap_before hl hg hsplit hwalk ht hi.le fun b hb => by
    obtain rfl := Option.some.inj hb
    exact hstart.ge
  obtain ⟨P₀, p₀, rfl, hseals⟩ := htidy.seals_before hl hg hgap hei hopen hcut hp hP
  refine ⟨P₀ ++ [p₀], p :: M, Q, trim_of_pieces hl hg htidy hsplit₁ ?_ hcut ?_ (.inr fun q hq => ?_)
    (by omega) (by omega) ?_ ?_ ?_ fun l' block hl' hins => ?_, hextentP.trans hstart.symm,
    hextentM.trans hstart'.symm⟩
  · intro x hx
    obtain rfl := List.mem_singleton.mp hx
    exact ⟨imports, target, htarget⟩
  · have := cut_without_of_seals (P := P₀) (M := p :: M) (Q := Q) (by rw [hcut]; simp) hseals (by simp)
    simpa using this
  · exact htidy.no_name_before hl hg hgap hei hopen (hP ▸ hq)
  · intro x hx
    have := hbefore x hx
    omega
  · intro x hx
    obtain rfl := List.mem_singleton.mp hx
    have := hafter _ List.mem_cons_self
    omega
  · intro x hx
    obtain rfl | hx := List.mem_cons.mp hx
    · omega
    · have := hlater x hx
      omega
  · obtain ⟨hsource, hout⟩ := texts_of_cut hcut
    obtain ⟨c', g', hc', hk, hpartner, hparse, hattributes, hgstart, hgstop, hgnext⟩ :=
      exists_parse_left ((P₀ ++ [p₀] ++ Q).flatMap Piece.text) hins hg (by omega) (by omega)
    have hthere : attributesFrom l source c (countIn (P₀ ++ [p₀]) + countIn (p :: M)) =
        (attributeAt l source j v).1 :: bs := by
      rw [hcount, hrest]
      exact hwalk'.attributesFrom_eq.symm
    obtain ⟨bs', hleft, hbs'⟩ :=
      exists_attributes_front hins hsource hout hg hpartner hc' hk (hP ▸ hwalk) hthere
    exact ⟨g', hparse, ⟨bs', hattributes.trans hleft, hbs'⟩, hgstart, hgstop, hgnext⟩

/-- What ends an attribute is no slash. -/
theorem Occupies.ne_slash {t u : Token} (he : Occupies l source i e t) (hl : tokenize source = .ok l)
    (hu : l.tokens[e]? = some u) : u.text ≠ ['/'] := by
  intro hslash
  obtain ⟨c, cs, hmeasure, htext⟩ := exists_measure hl hu
  obtain ⟨rfl, -⟩ := List.cons.inj (htext.symm.trans hslash)
  have hlast := he.last
  rw [kindAt, hu, Option.map_some, Option.some.injEq, Option.some.injEq] at hlast
  obtain hk | hk := hlast <;> rw [hk] at hmeasure
  · obtain ⟨-, hstart | ⟨hc, -⟩⟩ := measure_of_name hmeasure
    · revert hstart
      decide
    · cases hc
  · obtain ⟨hstop, -⟩ | ⟨hc, -⟩ := measure_of_sealing hmeasure rfl
    · cases hstop
    · cases hc

theorem isBreak_of_isFiller (h : p.isFiller = true) : p.kind.isBreak = true := by
  rw [Piece.isFiller] at h
  cases hk : p.kind <;> rw [hk] at h <;> first | rfl | cases h | skip
  rw [of_decide_eq_true h]
  rfl

theorem isBreak_of_follow (h : p.isFiller = true ∨ p.kind = .token .closeBracket) : p.kind.isBreak = true := by
  obtain h | h := h
  · exact isBreak_of_isFiller h
  · rw [h]
    rfl

/-- After the last attribute of a group there is a gap up to its end. -/
theorem gap_after (hl : tokenize source = .ok l) (hg : GroupAt l source g o c)
    (hsplit : g.attributes = as ++ [a])
    (hcovers : Covers l a.span i e) (hoe : o ≤ e) : Gap l g o c e c := by
  obtain ⟨u, hu, hstop⟩ := hcovers.last
  have hsize := (nested_of_tokenize hl).lt_size hg.partner
  obtain ⟨w, hw⟩ : ∃ w, l.tokens[c]? = some w := ⟨_, Array.getElem?_eq_getElem hsize⟩
  have hsplit' : g.attributes = (as ++ [a]) ++ [] := by rw [hsplit, List.append_nil]
  refine gap_of_split hl hg hsplit' hu hw (fun x hx => ?_) (by simp) hoe (Nat.le_refl c)
  rw [List.getLast?_concat] at hx
  obtain rfl := Option.some.inj hx
  exact hstop.ge

/-- The token after the last attribute of a tidy group is a comma or the bracket that closes the group. -/
theorem Tidy.kind_after (htidy : g.Tidy source) (hl : tokenize source = .ok l) (hg : GroupAt l source g o c)
    (hgap : Gap l g o c e c) (he : e < c) :
    l.kindAt (e + 1) = some .comma ∨ l.kindAt (e + 1) = some .closeBracket := by
  obtain heq | hlt := Nat.eq_or_lt_of_le (Nat.succ_le_of_lt he)
  · exact .inr ((congrArg l.kindAt heq).trans (hg.close (nested_of_tokenize hl)))
  · exact .inl (htidy.comma hl hg hgap (Nat.lt_succ_self e) hlt)

/-- The piece there is filler, or that bracket. -/
theorem Tidy.piece_after (htidy : g.Tidy source) (hl : tokenize source = .ok l) (hg : GroupAt l source g o c)
    (hgap : Gap l g o c e c) (he : e < c) (hcut : cut source = A ++ p :: R) (hA : countIn A = e + 1) :
    p.isFiller = true ∨ p.kind = .token .closeBracket := by
  by_cases hle : countIn (A ++ [p]) ≤ c
  · exact .inl (htidy.filler hl hg hgap hcut (by omega) hle)
  · rw [countIn_append] at hle
    obtain ⟨kind, hkind⟩ | hnone := token_or_none p
    · rw [countIn_singleton hkind] at hle
      have := kindAt_of_cut hl hcut hkind
      rw [show countIn A = c by omega, hg.close (nested_of_tokenize hl)] at this
      exact .inr (by rw [hkind, ← Option.some.inj this])
    · rw [show countIn [p] = 0 by simp [countIn, hnone]] at hle
      omega

/-- A source is cut as before without what stands between a token and filler, if it begins with filler. -/
theorem cut_without_of_filler {r q : Piece} {kind : TokenKind} (h : cut source = A ++ p :: (r :: M ++ q :: Q))
    (hp : p.kind = .token kind) (hslash : p.text ≠ ['/']) (hr : r.isFiller = true)
    (hq : q.isFiller = true ∨ q.kind = .token .closeBracket) :
    cut ((A ++ [p] ++ q :: Q).flatMap Piece.text) = A ++ [p] ++ q :: Q := by
  have hcut := cut_without_of_break h hp hslash (isBreak_of_isFiller hr) (isBreak_of_follow hq) fun hmarkup => by
    obtain hq | hq := hq
    · rw [Piece.isFiller, hmarkup] at hq
      cases hq
    · rw [hmarkup] at hq
      cases hq
  simpa using hcut

theorem ne_word_of_kind {kind : TokenKind} (h : l.kindAt i = some .comma ∨ l.kindAt i = some .closeBracket)
    (hkind : kind ∈ [TokenKind.name, .openBrace]) : l.kindAt i ≠ some kind := by
  intro he
  obtain h | h := h <;> obtain rfl := Option.some.inj (h.symm.trans he) <;> revert hkind <;> decide

/-- Attributes that name targets are taken out of a tidy group after the one before them, when no others
follow. -/
theorem exists_trim_back {cs : List Attribute} {z : Attribute} (hl : tokenize source = .ok l)
    (hg : GroupAt l source g o c) (htidy : g.Tidy source) (hsplit : g.attributes = as ++ a :: (cs ++ [z]))
    (htarget : ∀ x ∈ cs ++ [z], ∃ imports target, x.target imports = some target) :
    ∃ P M Q, Trim source l g o c (as ++ [a]) (cs ++ [z]) [] P M Q ∧ Reading.extent P = a.span.stop ∧
      Reading.extent (P ++ M) = z.span.stop := by
  have hn := nested_of_tokenize hl
  have hsplit₂ : g.attributes = (as ++ a :: cs) ++ [z] := by rw [hsplit]; simp
  have hsplit₃ : g.attributes = (as ++ [a]) ++ (cs ++ [z]) := by rw [hsplit]; simp
  obtain ⟨hbefore, hafter⟩ := order_of_split hl hg hsplit
  have hearlier := (order_of_split hl hg hsplit₂).1
  have hlta := (AttributeList.attributePlaced hl hg (a := a) (by rw [hsplit]; simp)).lt
  have hltz := (AttributeList.attributePlaced hl hg (a := z) (by rw [hsplit]; simp)).lt
  obtain ⟨b, bs, hcs⟩ : ∃ b bs, cs ++ [z] = b :: bs := List.exists_cons_of_ne_nil (by simp)
  -- the attribute that is left, the one after it, and the last
  have hread := hsplit
  rw [hg.attributes] at hread
  obtain ⟨i, t, hwalk, hi, ht, hname, rfl, hrest⟩ := exists_walk hread
  rw [hcs] at hrest
  obtain ⟨j, v, hwalk', hj, hv, hname', rfl, -⟩ :=
    exists_walk (show attributesFrom l source c _ = [] ++ b :: bs from hrest.symm)
  obtain ⟨i₂, e₂, t₂, ht₂, hname₂, rfl, he₂, hoi₂, hie₂, hec₂⟩ :=
    exists_occupied_of_mem hn hg (a := z) (by rw [hsplit]; simp)
  have hle := hwalk.le
  obtain ⟨e, he, hie, hec⟩ := exists_occupied source hn hg.partner (by omega) hi ht hname
  have hcomma := le_nextComma l c (attributeAt l source i t).2
  have hle' := hwalk'.le
  have hnext := he.next
  have hstart := start_attributeAt source hn hg.partner (by omega) hj hv hname'
  have hee₂ := he.covers.lt_of_stop_le hl he₂.covers (hafter _ (by simp))
  obtain ⟨u, hu, hstop⟩ := he.covers.last
  obtain ⟨u₂, hu₂, hstop₂⟩ := he₂.covers.last
  -- the gaps after the one that is left and after the last
  have hgap : Gap l g o c e j := by
    refine gap_of_split hl hg hsplit₃ hu hv (by simp [hstop]) (fun b hb => ?_) (by omega) hj.le
    rw [hcs] at hb
    obtain rfl := Option.some.inj hb
    exact hstart.ge
  have hgap₂ := gap_after hl hg hsplit₂ he₂.covers (by omega)
  have hkind := htidy.kind_after hl hg hgap₂ hec₂
  -- the pieces, and the ones before and after them
  obtain ⟨A, p, r, M, S, hcutA, hp, htext, hP, hPM, hextentP, hextentM⟩ :=
    exists_pieces_after hl hu hu₂ (by omega)
  have hcut : cut source = (A ++ [p]) ++ (r :: M ++ S) := by rw [hcutA]; simp
  have hcutS : cut source = (A ++ [p] ++ r :: M) ++ S := by rw [hcutA]; simp
  have hcount : countIn (A ++ [p]) + countIn (r :: M) = e₂ + 1 := by rw [← countIn_append, hPM]
  obtain ⟨w, hw⟩ : ∃ w, l.tokens[c]? = some w := ⟨_, Array.getElem?_eq_getElem (hn.lt_size hg.partner)⟩
  obtain ⟨q, Q, rfl⟩ := exists_cons_of_token hl hcutS hw (by omega)
  have hone : countIn [r] ≤ 1 := List.length_filterMap_le _ _
  have hr : r.isFiller = true := htidy.filler hl hg hgap (A := A ++ [p]) (R := M ++ q :: Q) (by rw [hcut]; simp)
    (by omega) (by rw [countIn_append]; omega)
  have hfirst : l.kindAt (e + 1) = some .comma := htidy.comma hl hg hgap (by omega) (by omega)
  have hq := htidy.piece_after hl hg hgap₂ hec₂ hcutS hPM
  refine ⟨A ++ [p], r :: M, q :: Q, trim_of_pieces hl hg htidy (by rw [List.append_nil]; exact hsplit₃)
    htarget hcut ?_ (.inl fun kind hmem => ?_) (by omega) (by omega) (fun x hx => ?_) (fun x hx => ?_) (by simp)
    fun l' block hl' hins => ?_, by rw [hextentP, hstop], by rw [hextentM, hstop₂]⟩
  · exact cut_without_of_filler hcutA hp (by rw [htext]; exact he.ne_slash hl hu) hr hq
  · rw [hcount, hP]
    exact ⟨ne_word_of_kind (.inl hfirst) hmem, ne_word_of_kind hkind hmem⟩
  · obtain hx | hx := List.mem_append.mp hx
    · have := hbefore x hx
      omega
    · obtain rfl := List.mem_singleton.mp hx
      omega
  · have := hafter x hx
    refine ⟨by omega, ?_⟩
    obtain hx | hx := List.mem_append.mp hx
    · have := hearlier x (by simp [hx])
      omega
    · obtain rfl := List.mem_singleton.mp hx
      omega
  · obtain ⟨hsource, hout⟩ := texts_of_cut hcut
    obtain ⟨c', g', hc', hk, -, hparse, hattributes, hgstart, hgstop, hgnext⟩ :=
      exists_parse_left ((A ++ [p] ++ q :: Q).flatMap Piece.text) hins hg (by omega) (by omega)
    have hleft := attributes_back hins hsource hout hc' hk hwalk ht hname he hie hP.symm (by
        rw [hcount]
        obtain h | h := hkind
        · exact not_isKind h (by simp)
        · exact not_isKind h (by simp)) fun x hx hxc => by
      rw [htidy.comma hl hg hgap₂ (by omega) hxc]
      simp
    exact ⟨g', hparse, ⟨[], by rw [List.append_nil]; exact hattributes.trans hleft, rfl⟩, hgstart,
      hgstop, hgnext⟩

/-! ## §4 Tidy groups stay tidy -/

/-- An element of two lists is one of the first or of the second. -/
theorem parts_of_append {α : Type} {P Q A R : List α} {p : α} (h : P ++ Q = A ++ p :: R) :
    (∃ D, A = P ++ D ∧ Q = D ++ p :: R) ∨ ∃ D, P = A ++ p :: D ∧ R = D ++ Q := by
  obtain ⟨D, rfl, hD⟩ | ⟨D, rfl, hD⟩ := List.append_eq_append_iff.mp h
  · exact .inl ⟨D, rfl, hD⟩
  · cases D with
    | nil => exact .inl ⟨[], by simp, by simpa using hD.symm⟩
    | cons d D =>
      obtain ⟨rfl, rfl⟩ := List.cons.inj hD
      exact .inr ⟨D, rfl, rfl⟩

/-- A group that attributes are taken out of stays tidy. -/
theorem Trim.tidy {g' : AttributeGroup} {cs : List Attribute} (h : Trim source l g o c as cs bs P M Q)
    (htidy : g.Tidy source) (hg' : Trimmed g g' as bs (countIn M) (Reading.extent M)) :
    g'.Tidy ((P ++ Q).flatMap Piece.text) := by
  obtain ⟨bs', hleft, hbs'⟩ := hg'.attributes
  intro A p R hcut hstart hstop houtside
  rw [h.without] at hcut
  rw [hg'.start] at hstart
  rw [hleft] at houtside
  have hgstop := hg'.stop
  have hdropped := h.dropped
  have hafter := h.after
  rw [extent_append] at hafter hdropped
  obtain ⟨D, rfl, hD⟩ | ⟨D, hP, hR⟩ := parts_of_append hcut
  · -- after the place
    refine htidy (P ++ (M ++ D)) p R (by rw [h.cut, hD]; simp) ?_ ?_ fun a ha => ?_
    · simp only [extent_append] at hstart ⊢
      omega
    · simp only [extent_append] at hstop ⊢
      omega
    · simp only [extent_append] at houtside ⊢
      rw [h.split] at ha
      obtain ha | ha := List.mem_append.mp ha
      · have := h.before a ha
        exact .inr (by omega)
      · obtain ha | ha := List.mem_append.mp ha
        · have := hdropped a ha
          exact .inr (by omega)
        · rw [hbs'] at ha
          obtain ⟨b, hb, rfl⟩ := List.mem_map.mp ha
          have := houtside b (List.mem_append_right _ hb)
          dsimp only [Attribute.shift, Span.shift]
          omega
  · -- before it
    have hle : Reading.extent (A ++ [p]) ≤ Reading.extent P := by
      rw [hP, show A ++ p :: D = (A ++ [p]) ++ D by simp, extent_append _ D]
      exact Nat.le_add_right _ _
    refine htidy A p (D ++ (M ++ Q)) (by rw [h.cut, hP]; simp) hstart (by omega) fun a ha => ?_
    rw [h.split] at ha
    obtain ha | ha := List.mem_append.mp ha
    · exact houtside a (List.mem_append_left _ ha)
    · obtain ha | ha := List.mem_append.mp ha
      · have := hdropped a ha
        exact .inl (by omega)
      · have := hafter a ha
        exact .inl (by omega)

end AttributeGroup

end Crosslink.Source
