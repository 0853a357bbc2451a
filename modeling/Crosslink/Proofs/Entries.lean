import Crosslink.Proofs.Brackets
import Crosslink.Proofs.Arguments

/-!
# Lists as pieces

What stands in a bracket is a list: items with commas between them, and blanks and comments
anywhere. Read off its pieces, the items are the arguments of the list.

* §1 `Item`, an argument as pieces.
* §2 `Entries`, the items of a list, each with what stands before it.
* §3 `exists_entries`, what stands in a bracket is a list.
* §4 `arguments_of_cut`, the arguments of a list.
* §5 `settle_of_entries`, the brackets of a list pair.
-/

namespace Crosslink.Source

open TokenSequence

variable {source : Text} {l : TokenSequence} {A I M Q R g s t U : List Piece} {p q : Piece}

/-! ## 1. Items -/

/-- A token of a list that is no bracket and no comma, or a bracket with all it encloses. -/
inductive Thing : List Piece → Prop
  | token {p : Piece} {kind : TokenKind} (kind_eq : p.kind = .token kind)
      (opens : kind.opens = false) (closes : kind.closes = none) (comma : kind ≠ .comma) : Thing [p]
  | bracketed {p q : Piece} {M : List Piece} (h : Bracketed p M q) : Thing (p :: (M ++ [q]))

/-- An argument: some things, with no comma between them. -/
inductive Item : List Piece → Prop
  | one {U : List Piece} (thing : Thing U) : Item U
  | more {U g I : List Piece} (thing : Thing U) (gap : kindsIn g = []) (rest : Item I) :
      Item (U ++ (g ++ I))

theorem Thing.first (h : Thing U) :
    ∃ p U₁ kind, U = p :: U₁ ∧ p.kind = .token kind ∧ kind ≠ .comma := by
  cases h with
  | token kind_eq opens closes comma => exact ⟨_, [], _, rfl, kind_eq, comma⟩
  | bracketed h =>
    obtain ⟨o, d, hp, -, hopens, -⟩ := h.kinds
    refine ⟨_, _, o, rfl, hp, ?_⟩
    rintro rfl
    cases hopens

theorem Thing.last (h : Thing U) : ∃ U₀ p kind, U = U₀ ++ [p] ∧ p.kind = .token kind := by
  cases h with
  | token kind_eq opens closes comma => exact ⟨[], _, _, rfl, kind_eq⟩
  | @bracketed p q M h =>
    obtain ⟨o, d, -, hq, -⟩ := h.kinds
    exact ⟨p :: M, q, d, rfl, hq⟩

theorem Item.first (h : Item I) :
    ∃ p I₁ kind, I = p :: I₁ ∧ p.kind = .token kind ∧ kind ≠ .comma := by
  cases h with
  | one thing => exact thing.first
  | more thing gap rest =>
    obtain ⟨p, U₁, kind, rfl, hp, hkind⟩ := thing.first
    exact ⟨p, _, kind, rfl, hp, hkind⟩

theorem Item.last (h : Item I) : ∃ I₀ p kind, I = I₀ ++ [p] ∧ p.kind = .token kind := by
  induction h with
  | one thing => exact thing.last
  | @more U g I thing gap rest ih =>
    obtain ⟨I₀, p, kind, rfl, hp⟩ := ih
    exact ⟨U ++ (g ++ I₀), p, kind, by simp, hp⟩

theorem Item.ne_nil (h : Item I) : I ≠ [] := by
  obtain ⟨p, I₁, -, rfl, -⟩ := h.first
  simp

theorem kindAt_of_cut (hl : tokenize source = .ok l) (hcut : cut source = A ++ p :: Q)
    {kind : TokenKind} (hp : p.kind = .token kind) : l.kindAt (countIn A) = some kind := by
  have := kindsIn_eq (j := 0) hl (M := [p]) (by simpa using hcut) (by simp [countIn_singleton hp])
  rw [Nat.add_zero] at this
  rw [← this, kindsIn_of_token hp]
  rfl

theorem isKind_of_kindAt {i : Nat} {kind kind' : TokenKind} (h : l.kindAt i = some kind) :
    l.isKind i kind' = decide (kind = kind') := by
  rw [isKind, h]
  simp

/-- A thing is passed over whole. -/
theorem walks_of_thing (hl : tokenize source = .ok l) (hcut : cut source = A ++ (U ++ Q))
    (h : Thing U) (o : Option (Nat × Nat)) :
    Walks l o (countIn A) []
      (some ((o.map Prod.fst).getD (countIn A), countIn A + countIn U - 1))
      (countIn A + countIn U) := by
  have hn := nested_of_tokenize hl
  have hstep : ∀ {kind : TokenKind} {n : Nat}, l.kindAt (countIn A) = some kind → kind ≠ .comma →
      l.lastOf (countIn A) = countIn A + n - 1 → 0 < n →
      Walks l o (countIn A) [] (some ((o.map Prod.fst).getD (countIn A), countIn A + n - 1))
        (countIn A + n) := by
    intro kind n hkind hcomma hlast hpos
    have hwalk : Walks l o (countIn A) [] _ _ :=
      .item (by rw [isKind_of_kindAt hkind]; simpa using hcomma) (.refl _ _)
    rw [hlast, show countIn A + n - 1 + 1 = countIn A + n by omega] at hwalk
    exact hwalk
  cases h with
  | @token p kind kind_eq opens closes comma =>
    have hkind := kindAt_of_cut hl (by simpa using hcut) kind_eq
    rw [countIn_singleton kind_eq]
    exact hstep hkind comma (by rw [lastOf_of_plain hn hkind opens]; omega) Nat.one_pos
  | @bracketed p q M h =>
    have hpartner := partnerAt_of_cut hl (by simpa using hcut) h
    obtain ⟨o', d, hp, hq, hopens, -⟩ := h.kinds
    have hkind := kindAt_of_cut hl (by simpa using hcut) hp
    have hcount : countIn (p :: (M ++ [q])) = 1 + countIn M + 1 := by
      rw [← List.singleton_append, countIn_append, countIn_append, countIn_singleton hp,
        countIn_singleton hq]
      omega
    rw [hcount]
    refine hstep hkind ?_ ?_ (by omega)
    · rintro rfl
      cases hopens
    · rw [Inserted.lastOf_eq_partner hpartner (by omega)]
      omega

theorem countIn_of_kinds (h : kindsIn g = []) : countIn g = 0 := by
  rw [← length_kindsIn, h]
  rfl

/-- An item is passed over, and its slot is open after it. -/
theorem walks_of_item (hl : tokenize source = .ok l) (hcut : cut source = A ++ (I ++ Q))
    (h : Item I) (o : Option (Nat × Nat)) :
    Walks l o (countIn A) []
      (some ((o.map Prod.fst).getD (countIn A), countIn A + countIn I - 1))
      (countIn A + countIn I) := by
  induction h generalizing A o with
  | one thing => exact walks_of_thing hl hcut thing o
  | @more U g I thing gap rest ih =>
    have hfirst := walks_of_thing hl (A := A) (Q := g ++ I ++ Q) (by simpa using hcut) thing o
    have hcount : countIn (A ++ (U ++ g)) = countIn A + countIn U := by
      rw [countIn_append, countIn_append, countIn_of_kinds gap]
      omega
    have hrest := ih (A := A ++ (U ++ g)) (by simpa using hcut)
      (some ((o.map Prod.fst).getD (countIn A), countIn A + countIn U - 1))
    rw [hcount] at hrest
    rw [countIn_append, countIn_append, countIn_of_kinds gap, Nat.zero_add, ← Nat.add_assoc]
    exact hfirst.trans hrest

/-! ## 2. Entries -/

/-- Pieces that hold no token but commas. -/
def Commas (ps : List Piece) : Prop := ∀ kind ∈ kindsIn ps, kind = .comma

/-- After commas a slot that was open is finished. -/
theorem walks_of_commas (hl : tokenize source = .ok l) (hcut : cut source = A ++ (s ++ Q))
    (h : Commas s) (o : Option (Nat × Nat)) :
    Walks l o (countIn A) (if kindsIn s = [] then [] else o.toList)
      (if kindsIn s = [] then o else none) (countIn A + countIn s) := by
  induction s generalizing A o with
  | nil => exact .refl _ _
  | cons p s ih =>
    obtain ⟨kind, hp⟩ | hp := token_or_none p
    · obtain rfl : kind = .comma := h kind (by rw [kindsIn_of_token hp]; simp)
      have hkind := kindAt_of_cut hl (by simpa using hcut) hp
      have hrest := ih (A := A ++ [p]) (by simpa using hcut)
        (fun k hk => h k (by rw [kindsIn_of_token hp]; simp [hk])) none
      rw [countIn_append, countIn_singleton hp] at hrest
      have hwalk : Walks l o (countIn A) _ _ _ :=
        .comma (by rw [isKind_of_kindAt hkind]; rfl) hrest
      rw [kindsIn_of_token hp, if_neg (by simp), if_neg (by simp), ← List.singleton_append,
        countIn_append, countIn_singleton hp, ← Nat.add_assoc]
      simpa using hwalk
    · have hrest := ih (A := A ++ [p]) (by simpa using hcut)
        (fun k hk => h k (by rw [kindsIn_of_none hp]; exact hk)) o
      have hzero : countIn [p] = 0 := by simp [countIn, hp]
      rw [countIn_append, hzero, Nat.add_zero] at hrest
      rw [kindsIn_of_none hp, ← List.singleton_append, countIn_append, hzero, Nat.zero_add]
      exact hrest

/-- An item of a list with what stands before it. -/
structure ListEntry where
  sep : List Piece
  item : List Piece

namespace ListEntry

/-- The pieces of an entry. -/
def pieces (e : ListEntry) : List Piece := e.sep ++ e.item

end ListEntry

/-- The items of a list. Commas stand before each of them, except that none has to stand before the
first where `fresh` is set. -/
inductive Entries : Bool → List ListEntry → Prop
  | nil (fresh : Bool) : Entries fresh []
  | cons {fresh : Bool} {e : ListEntry} {es : List ListEntry} (commas : Commas e.sep)
      (apart : fresh = false → kindsIn e.sep ≠ []) (item : Item e.item)
      (rest : Entries false es) : Entries fresh (e :: es)

/-- The slots of entries, the first of which begins at the token `k`. -/
def slotsOf (k : Nat) : List ListEntry → List (Nat × Nat)
  | [] => []
  | e :: es =>
    (k + countIn e.sep, k + countIn e.sep + countIn e.item - 1)
      :: slotsOf (k + countIn e.sep + countIn e.item) es

/-- The arguments that entries are, the first of which begins at an offset. -/
def argumentsOf (offset : Nat) : List ListEntry → List Argument
  | [] => []
  | e :: es =>
    let start := offset + Reading.extent e.sep
    let stop := start + Reading.extent e.item
    ⟨⟨start, stop⟩, e.item.flatMap Piece.text⟩ :: argumentsOf stop es

/-- The walk over what stands before an item. -/
theorem walks_of_sep (hl : tokenize source = .ok l) (hcut : cut source = A ++ (s ++ Q))
    (h : Commas s) {o : Option (Nat × Nat)} (ho : kindsIn s = [] → o = none) :
    Walks l o (countIn A) o.toList none (countIn A + countIn s) := by
  have hwalk := walks_of_commas hl hcut h o
  by_cases hs : kindsIn s = []
  · obtain rfl := ho hs
    rw [if_pos hs, if_pos hs] at hwalk
    exact hwalk
  · rw [if_neg hs, if_neg hs] at hwalk
    exact hwalk

/-- The walk over entries. -/
theorem walks_of_entries {fresh : Bool} {es : List ListEntry} (h : Entries fresh es)
    (hl : tokenize source = .ok l) (hcut : cut source = A ++ (es.flatMap ListEntry.pieces ++ Q))
    {o : Option (Nat × Nat)} (ho : fresh = true → o = none) :
    ∃ S r, Walks l o (countIn A) S r (countIn (A ++ es.flatMap ListEntry.pieces)) ∧
      S ++ r.toList = o.toList ++ slotsOf (countIn A) es ∧ (es = [] → r = o) := by
  induction h generalizing A o with
  | nil => exact ⟨[], o, by simpa using Walks.refl o _, by simp [slotsOf], fun _ => rfl⟩
  | @cons fresh e es commas apart item rest ih =>
    have hcut' : cut source = A ++ (e.sep ++ (e.item ++ (es.flatMap ListEntry.pieces ++ Q))) := by
      simpa [ListEntry.pieces] using hcut
    have hsep := walks_of_sep hl hcut' commas (o := o) fun hs => by
      cases fresh with
      | true => exact ho rfl
      | false => exact absurd hs (apart rfl)
    have hitem := walks_of_item hl (A := A ++ e.sep) (by simpa using hcut') item none
    obtain ⟨S, r, hwalk, hS, -⟩ := ih (A := A ++ (e.sep ++ e.item)) (by simpa using hcut')
      (o := some (countIn A + countIn e.sep, countIn A + countIn e.sep + countIn e.item - 1))
      (by simp)
    simp only [countIn_append, Option.map_none, Option.getD_none] at hitem hwalk hS ⊢
    rw [← Nat.add_assoc] at hwalk
    refine ⟨o.toList ++ [] ++ S, r, ?_, ?_, by simp⟩
    · have := (hsep.trans hitem).trans hwalk
      simpa [ListEntry.pieces, countIn_append, Nat.add_assoc] using this
    · rw [List.append_nil, List.append_assoc, hS]
      simp [slotsOf, Nat.add_assoc]

/-! ## 3. What stands in a bracket -/

/-- What stands before the first token that is no comma. -/
theorem exists_commas (ps : List Piece) :
    ∃ s R, ps = s ++ R ∧ Commas s ∧ ((kindsIn ps).head? = some .comma → kindsIn s ≠ []) ∧
      (R = [] ∨ ∃ p R₁ kind, R = p :: R₁ ∧ p.kind = .token kind ∧ kind ≠ .comma) := by
  induction ps with
  | nil => exact ⟨[], [], rfl, by simp [Commas, kindsIn], by simp [kindsIn], .inl rfl⟩
  | cons p ps ih =>
    obtain ⟨s, R, rfl, hs, hhead, hR⟩ := ih
    obtain ⟨kind, hp⟩ | hp := token_or_none p
    · by_cases hcomma : kind = .comma
      · subst hcomma
        refine ⟨p :: s, R, rfl, fun k hk => ?_, fun _ => by rw [kindsIn_of_token hp]; simp, hR⟩
        rw [kindsIn_of_token hp] at hk
        obtain rfl | hk := List.mem_cons.mp hk
        · rfl
        · exact hs k hk
      · refine ⟨[], p :: (s ++ R), rfl, by simp [Commas, kindsIn], fun h => ?_,
          .inr ⟨p, s ++ R, kind, rfl, hp, hcomma⟩⟩
        rw [kindsIn_of_token hp] at h
        exact absurd (by simpa using h) hcomma
    · refine ⟨p :: s, R, rfl, fun k hk => hs k (by rwa [kindsIn_of_none hp] at hk), fun h => ?_, hR⟩
      rw [kindsIn_of_none hp] at h ⊢
      exact hhead h

/-- The pieces before the first token. -/
theorem exists_gap_of_pieces (ps : List Piece) :
    ∃ g R, ps = g ++ R ∧ kindsIn g = [] ∧
      (R = [] ∨ ∃ p R₁ kind, R = p :: R₁ ∧ p.kind = .token kind) := by
  induction ps with
  | nil => exact ⟨[], [], rfl, rfl, .inl rfl⟩
  | cons p ps ih =>
    obtain ⟨kind, hp⟩ | hp := token_or_none p
    · exact ⟨[], p :: ps, rfl, rfl, .inr ⟨p, ps, kind, rfl, hp⟩⟩
    · obtain ⟨g, R, rfl, hg, hR⟩ := ih
      exact ⟨p :: g, R, rfl, by rw [kindsIn_of_none hp, hg], hR⟩

theorem Block.of_commas (h : Block (s ++ R)) (hs : Commas s) : Block R := by
  refine ⟨fun p hp => h.ends p (by simp [hp]), ?_⟩
  have hsettle := h.settles
  rw [kindsIn_append, settle_append, settle_of_plain fun kind hk => by
    rw [hs kind hk]
    exact ⟨rfl, rfl⟩] at hsettle
  exact hsettle

/-- A block that does not begin with a comma begins with a thing. -/
theorem Block.exists_thing (h : Block (p :: R)) {kind : TokenKind} (hp : p.kind = .token kind)
    (hcomma : kind ≠ .comma) : ∃ U Q, p :: R = U ++ Q ∧ Thing U ∧ Block Q := by
  by_cases hopens : kind.opens = true
  · obtain ⟨M, q, Q, rfl, hb, hQ⟩ := h.exists_bracketed hp hopens
    exact ⟨p :: (M ++ [q]), Q, by simp, .bracketed hb, hQ⟩
  · have ho : kind.opens = false := by simpa using hopens
    have hc := h.closes_eq_none hp ho
    refine ⟨[p], R, rfl, .token hp ho hc hcomma, h.tail fun k hk => ?_⟩
    obtain rfl : kind = k := by simpa [hp] using hk
    exact ⟨ho, hc⟩

/-- A block that does not begin with a comma begins with an item. -/
theorem Block.exists_item (n : Nat) (h : Block (p :: R)) (hn : (p :: R).length ≤ n)
    {kind : TokenKind} (hp : p.kind = .token kind) (hcomma : kind ≠ .comma) :
    ∃ I t, p :: R = I ++ t ∧ Item I ∧ Block t ∧
      (kindsIn t = [] ∨ (kindsIn t).head? = some .comma) := by
  induction n generalizing p R kind with
  | zero => simp at hn
  | succ n ih =>
    obtain ⟨U, Q, hsplit, hU, hQ⟩ := h.exists_thing hp hcomma
    obtain ⟨g, R', rfl, hg, hR'⟩ := exists_gap_of_pieces Q
    obtain rfl | ⟨p', R₁, kind', rfl, hp'⟩ := hR'
    · exact ⟨U, g ++ [], hsplit, .one hU, hQ, .inl (by simpa using hg)⟩
    · have hhead : (kindsIn (g ++ p' :: R₁)).head? = some kind' := by
        rw [kindsIn_append, hg, kindsIn_of_token hp']
        rfl
      by_cases hcomma' : kind' = .comma
      · exact ⟨U, g ++ p' :: R₁, hsplit, .one hU, hQ, .inr (hcomma' ▸ hhead)⟩
      · have hR : Block (p' :: R₁) := hQ.of_commas fun k hk => by rw [hg] at hk; cases hk
        have hlen := congrArg List.length hsplit
        obtain ⟨p₀, U₁, -, rfl, -⟩ := hU.first
        obtain ⟨I, t, hI, hitem, ht, hnext⟩ := ih hR
          (by simp only [List.length_append, List.length_cons] at hlen hn ⊢; omega) hp' hcomma'
        exact ⟨(p₀ :: U₁) ++ (g ++ I), t, by rw [hsplit, hI]; simp, .more hU hg hitem, ht, hnext⟩

/-- What stands in a bracket is a list. -/
theorem Block.exists_entries (n : Nat) {ps : List Piece} (h : Block ps) (hn : ps.length ≤ n)
    (fresh : Bool) (hfresh : fresh = false → kindsIn ps = [] ∨ (kindsIn ps).head? = some .comma) :
    ∃ es t, ps = es.flatMap ListEntry.pieces ++ t ∧ Entries fresh es ∧ Commas t := by
  induction n generalizing ps fresh with
  | zero =>
    obtain rfl := List.length_eq_zero_iff.mp (Nat.le_zero.mp hn)
    exact ⟨[], [], rfl, .nil _, by simp [Commas, kindsIn]⟩
  | succ n ih =>
    obtain ⟨s, R, rfl, hs, hhead, hR⟩ := exists_commas ps
    obtain rfl | ⟨p, R₁, kind, rfl, hp, hcomma⟩ := hR
    · exact ⟨[], s, by simp, .nil _, hs⟩
    · obtain ⟨I, t, hI, hitem, ht, hnext⟩ :=
        (h.of_commas hs).exists_item _ (Nat.le_refl _) hp hcomma
      have hlen := congrArg List.length hI
      have hpos := List.length_pos_iff.mpr hitem.ne_nil
      obtain ⟨es, t', rfl, hes, ht'⟩ := ih ht
        (by simp only [List.length_append, List.length_cons] at hlen hn; omega) false fun _ => hnext
      refine ⟨⟨s, I⟩ :: es, t', by rw [hI]; simp [ListEntry.pieces],
        .cons hs (fun hf => hhead ?_) hitem hes, ht'⟩
      refine (hfresh hf).resolve_left fun hnil => ?_
      rw [kindsIn_append, kindsIn_of_token hp] at hnil
      simp at hnil

/-! ## 4. Arguments -/

/-- The token that a piece is. -/
theorem exists_token_of_cut (hl : tokenize source = .ok l) (hcut : cut source = A ++ p :: Q)
    {kind : TokenKind} (hp : p.kind = .token kind) :
    ∃ t, l.tokens[countIn A]? = some t ∧ t.kind = kind ∧ t.text = p.text ∧
      t.span = ⟨Reading.extent A, Reading.extent A + Text.width p.text⟩ := by
  have hbare := (bare_of_tokenize hl).1
  have htoken : (tokensIn 0 (cut source))[countIn A]? =
      some ⟨kind, ⟨Reading.extent A, Reading.extent A + Text.width p.text⟩, p.text, none⟩ := by
    rw [hcut, tokensIn_append, List.getElem?_append_right (by rw [length_tokensIn]; exact Nat.le_refl _),
      length_tokensIn, countIn, Nat.sub_self, tokensIn, tokenAt, hp]
    simp
  rw [← hbare, List.getElem?_map] at htoken
  obtain ⟨t, ht, heq⟩ := Option.map_eq_some_iff.mp htoken
  refine ⟨t, by rw [← Array.getElem?_toList]; exact ht, ?_, ?_, ?_⟩
  · exact congrArg Token.kind heq
  · exact congrArg Token.text heq
  · exact congrArg Token.span heq

/-- The argument that an item is. -/
theorem argumentIn_of_cut (hl : tokenize source = .ok l) (hcut : cut source = A ++ (I ++ Q))
    (h : Item I) :
    l.argumentIn source (countIn A, countIn A + countIn I - 1) =
      ⟨⟨Reading.extent A, Reading.extent A + Reading.extent I⟩, I.flatMap Piece.text⟩ := by
  obtain ⟨p, I₁, kind, hfirst, hp, -⟩ := h.first
  obtain ⟨I₀, q, kind', hlast, hq⟩ := h.last
  obtain ⟨t, ht, -, -, hspan⟩ := exists_token_of_cut hl (A := A) (Q := I₁ ++ Q)
    (by rw [hcut, hfirst]; simp) hp
  obtain ⟨u, hu, -, -, hspan'⟩ := exists_token_of_cut hl (A := A ++ I₀) (Q := Q)
    (by rw [hcut, hlast]; simp) hq
  have hcount : countIn A + countIn I - 1 = countIn (A ++ I₀) := by
    rw [hlast, countIn_append, countIn_append, countIn_singleton hq]
    omega
  have hextent : Reading.extent (A ++ I₀) + Text.width q.text =
      Reading.extent A + Reading.extent I := by
    rw [hlast, extent_append, extent_append]
    simp [Reading.extent, Nat.add_assoc]
  have hsource : source = A.flatMap Piece.text ++ (I.flatMap Piece.text ++ Q.flatMap Piece.text) := by
    conv => lhs; rw [source_eq hcut]
    simp
  simp only [argumentIn, TokenSequence.argument, stopAt, ht, hcount, hu, Option.map_some,
    Option.getD_some, hspan, hspan', hextent, Span.slice, Argument.mk.injEq, true_and]
  conv => lhs; rw [hsource]
  exact Text.slice_middle _ _ _

theorem arguments_of_slots {fresh : Bool} {es : List ListEntry} (h : Entries fresh es)
    (hl : tokenize source = .ok l) (hcut : cut source = A ++ (es.flatMap ListEntry.pieces ++ Q)) :
    (slotsOf (countIn A) es).map (l.argumentIn source) = argumentsOf (Reading.extent A) es := by
  induction h generalizing A with
  | nil => rfl
  | @cons fresh e es commas apart item rest ih =>
    have hcut' : cut source = A ++ (e.sep ++ (e.item ++ (es.flatMap ListEntry.pieces ++ Q))) := by
      simpa [ListEntry.pieces] using hcut
    have hitem := argumentIn_of_cut hl (A := A ++ e.sep) (by simpa using hcut') item
    have hrest := ih (A := A ++ (e.sep ++ e.item)) (by simpa using hcut')
    simp only [countIn_append, extent_append, ← Nat.add_assoc] at hitem hrest
    rw [slotsOf, argumentsOf, List.map_cons, hitem, hrest]

/-- The arguments of a list are its items. -/
theorem arguments_of_cut {es : List ListEntry} (hes : Entries true es) (ht : Commas t)
    (hl : tokenize source = .ok l)
    (hcut : cut source = A ++ p :: (es.flatMap ListEntry.pieces ++ t ++ q :: Q))
    (hb : Bracketed p (es.flatMap ListEntry.pieces ++ t) q) :
    l.arguments source (countIn A) = argumentsOf (Reading.extent (A ++ [p])) es := by
  obtain ⟨o, d, hp, -⟩ := hb.kinds
  have hpartner := partnerAt_of_cut hl hcut hb
  have hcut' : cut source = (A ++ [p]) ++ (es.flatMap ListEntry.pieces ++ (t ++ q :: Q)) := by
    simpa using hcut
  have hstart : countIn (A ++ [p]) = countIn A + 1 := by
    rw [countIn_append, countIn_singleton hp]
  obtain ⟨S, r, hwalk, hS, -⟩ := walks_of_entries hes hl hcut' (o := none) (fun _ => rfl)
  have htail := walks_of_commas hl (A := A ++ [p] ++ es.flatMap ListEntry.pieces) (by simpa using hcut')
    ht r
  have hclose : countIn (A ++ [p] ++ es.flatMap ListEntry.pieces) + countIn t =
      countIn A + 1 + countIn (es.flatMap ListEntry.pieces ++ t) := by
    rw [countIn_append, hstart, countIn_append]
    omega
  rw [hclose] at htail
  have hslots := (hwalk.trans htail).slotsFrom_eq (Nat.le_refl _)
  have hopen : (if kindsIn t = [] then [] else r.toList) ++
      (if kindsIn t = [] then r else none).toList = r.toList := by
    split <;> simp
  rw [slotsFrom_close, List.append_assoc, hopen, hS, hstart] at hslots
  rw [arguments_eq, slots, hpartner]
  simp only [hslots, Option.toList_none, List.nil_append]
  rw [← hstart]
  exact arguments_of_slots hes hl hcut'

/-! ## 5. The brackets of a list -/

theorem settle_of_thing {U : List Piece} (h : Thing U) : settle [] (kindsIn U) = some [] := by
  cases h with
  | token kind_eq opens closes comma =>
    rw [kindsIn_of_token kind_eq]
    exact settle_of_plain (fun k hk => by
      obtain rfl := List.mem_singleton.mp hk
      exact ⟨opens, closes⟩) _
  | bracketed h => exact h.isBlock.settles

theorem settle_of_item {I : List Piece} (h : Item I) : settle [] (kindsIn I) = some [] := by
  induction h with
  | one thing => exact settle_of_thing thing
  | more thing gap rest ih =>
    rw [kindsIn_append, kindsIn_append, gap, settle_append, settle_of_thing thing]
    exact ih

theorem settle_of_commas {s : List Piece} (h : Commas s) (S : List TokenKind) :
    settle S (kindsIn s) = some S :=
  settle_of_plain (fun kind hk => by
    rw [h kind hk]
    exact ⟨rfl, rfl⟩) _

theorem settle_of_entries {fresh : Bool} {es : List ListEntry} (h : Entries fresh es) :
    settle [] (kindsIn (es.flatMap ListEntry.pieces)) = some [] := by
  induction h with
  | nil => rfl
  | cons commas apart item rest ih =>
    rw [List.flatMap_cons, ListEntry.pieces, kindsIn_append, kindsIn_append, settle_append, settle_append,
      settle_of_commas commas, Option.bind_some, settle_of_item item]
    exact ih

end Crosslink.Source
