import Crosslink.Proofs.Beginnings
import Crosslink.Proofs.Excerpts

/-!
# Brackets as pieces

Two brackets of a source are partners exactly when what stands between them is a block. So where the
brackets of a source pair is told by its pieces, and pieces that form a block can be taken apart into
things whose brackets are closed: tokens that are no brackets, and brackets with all they enclose.

* §1 `exists_closer`, where a bracket is closed that is open.
* §2 `partnerAt_of_cut` and `exists_bracket`, partners and the pieces between them.
-/

namespace Crosslink.Source

open TokenSequence

variable {source : Text} {l : TokenSequence} {A M Q R : List Piece} {p q : Piece}

/-! ## 1. Where a bracket is closed -/

theorem kindsIn_of_token {kind : TokenKind} (hp : p.kind = .token kind) (ps : List Piece) :
    kindsIn (p :: ps) = kind :: kindsIn ps := by
  rw [kindsIn_cons, wordOf, hp]
  rfl

theorem kindsIn_of_none (hp : wordOf p = none) (ps : List Piece) : kindsIn (p :: ps) = kindsIn ps := by
  rw [kindsIn_cons, hp]
  rfl

/-- A piece is a token, or it has no part in how brackets pair. -/
theorem token_or_none (p : Piece) : (∃ kind, p.kind = .token kind) ∨ wordOf p = none := by
  unfold wordOf
  cases p.kind <;> simp

/-- A bracket that is open and no longer so in the end is closed on the way, by pieces that a block
is before. -/
theorem exists_closer {N S T : List TokenKind} {o : TokenKind} {ps : List Piece}
    (h : settle (N ++ o :: S) (kindsIn ps) = some T) (hlen : T.length ≤ S.length) :
    ∃ M q Q d openers, ps = M ++ q :: Q ∧ q.kind = .token d ∧ settle N (kindsIn M) = some [] ∧
      d.opens = false ∧ d.closes = some openers ∧ openers.contains o = true ∧
      settle S (kindsIn Q) = some T := by
  induction ps generalizing N with
  | nil =>
    obtain rfl : N ++ o :: S = T := Option.some.inj h
    simp only [List.length_append, List.length_cons] at hlen
    omega
  | cons p ps ih =>
    obtain ⟨kind, hp⟩ | hp := token_or_none p
    · rw [kindsIn_of_token hp, settle] at h
      by_cases hopens : kind.opens = true
      · rw [if_pos hopens] at h
        obtain ⟨M, q, Q, d, openers, rfl, hq, hM, hrest⟩ := ih (N := kind :: N) h
        refine ⟨p :: M, q, Q, d, openers, rfl, hq, ?_, hrest⟩
        rw [kindsIn_of_token hp, settle, if_pos hopens, hM]
      · rw [if_neg hopens] at h
        cases hcloses : kind.closes with
        | none =>
          rw [hcloses] at h
          obtain ⟨M, q, Q, d, openers, rfl, hq, hM, hrest⟩ := ih h
          refine ⟨p :: M, q, Q, d, openers, rfl, hq, ?_, hrest⟩
          rw [kindsIn_of_token hp, settle, if_neg hopens, hcloses]
          exact hM
        | some openers =>
          rw [hcloses] at h
          cases N with
          | nil =>
            simp only [List.nil_append] at h
            split at h
            · rename_i hmem
              exact ⟨[], p, ps, kind, openers, rfl, hp, rfl, by simpa using hopens, hcloses, hmem, h⟩
            · cases h
          | cons n N =>
            simp only [List.cons_append] at h
            split at h
            · rename_i hmem
              obtain ⟨M, q, Q, d, openers', rfl, hq, hM, hrest⟩ := ih h
              refine ⟨p :: M, q, Q, d, openers', rfl, hq, ?_, hrest⟩
              rw [kindsIn_of_token hp, settle, if_neg hopens, hcloses]
              simp only [if_pos hmem]
              exact hM
            · cases h
    · rw [kindsIn_of_none hp] at h
      obtain ⟨M, q, Q, d, openers, rfl, hq, hM, hrest⟩ := ih h
      exact ⟨p :: M, q, Q, d, openers, rfl, hq, by rw [kindsIn_of_none hp]; exact hM, hrest⟩

/-- What some words do with the brackets that are open, they do whatever is open around these. -/
theorem settle_under {N T kinds : List TokenKind} (h : settle N kinds = some T)
    (S : List TokenKind) : settle (N ++ S) kinds = some (T ++ S) := by
  induction kinds generalizing N with
  | nil =>
    obtain rfl := Option.some.inj h
    rfl
  | cons kind kinds ih =>
    rw [settle] at h ⊢
    by_cases hopens : kind.opens = true
    · rw [if_pos hopens] at h ⊢
      exact ih h
    · rw [if_neg hopens] at h ⊢
      cases hcloses : kind.closes with
      | none =>
        rw [hcloses] at h
        exact ih h
      | some openers =>
        rw [hcloses] at h
        cases N with
        | nil => cases h
        | cons n N =>
          simp only [List.cons_append] at h ⊢
          split at h
          · rename_i hmem
            rw [if_pos hmem]
            exact ih h
          · cases h

theorem Block.settle_eq (h : Block M) (S : List TokenKind) : settle S (kindsIn M) = some S :=
  settle_under h.settles S

theorem Block.nil : Block [] := ⟨by simp, rfl⟩

theorem Block.append (hM : Block M) (hQ : Block Q) : Block (M ++ Q) where
  ends p hp := by
    obtain hp | hp := List.mem_append.mp hp
    · exact hM.ends p hp
    · exact hQ.ends p hp
  settles := by
    rw [kindsIn_append, settle_append, hM.settles]
    exact hQ.settles

/-- A bracket, a block and the bracket that closes it. -/
structure Bracketed (p : Piece) (M : List Piece) (q : Piece) : Prop where
  kinds : ∃ o d, p.kind = .token o ∧ q.kind = .token d ∧ o.Pairs d
  block : Block M

theorem Bracketed.isBlock (h : Bracketed p M q) : Block (p :: (M ++ [q])) := by
  obtain ⟨o, d, hp, hq, hopens, hcloses, openers, hopeners, hmem⟩ := h.kinds
  refine ⟨fun r hr e => ?_, ?_⟩
  · obtain rfl | hr := List.mem_cons.mp hr
    · simp [hp]
    · obtain hr | hr := List.mem_append.mp hr
      · exact h.block.ends r hr e
      · obtain rfl : r = q := by simpa using hr
        simp [hq]
  · rw [kindsIn_of_token hp, kindsIn_append, settle, if_pos hopens, settle_append,
      h.block.settle_eq, Option.bind_some, kindsIn_of_token hq, settle, if_neg (by simp [hcloses]),
      hopeners]
    simp only [if_pos hmem]
    rfl

/-- A block that begins with a bracket begins with all that the bracket encloses. -/
theorem Block.exists_bracketed (h : Block (p :: R)) {o : TokenKind} (hp : p.kind = .token o)
    (ho : o.opens = true) : ∃ M q Q, R = M ++ q :: Q ∧ Bracketed p M q ∧ Block Q := by
  have hsettle := h.settles
  rw [kindsIn_of_token hp, settle, if_pos ho] at hsettle
  obtain ⟨M, q, Q, d, openers, rfl, hq, hM, hopens, hcloses, hmem, hQ⟩ :=
    exists_closer (N := []) hsettle (Nat.le_refl _)
  have hends : ∀ r ∈ M ++ q :: Q, ∀ e, r.kind ≠ .broken e :=
    fun r hr => h.ends r (List.mem_cons_of_mem _ hr)
  exact ⟨M, q, Q, rfl, ⟨⟨o, d, hp, hq, ho, hopens, openers, hcloses, hmem⟩,
    ⟨fun r hr => hends r (by simp [hr]), hM⟩⟩, ⟨fun r hr => hends r (by simp [hr]), hQ⟩⟩

/-- A block that begins with a token that is no bracket, or with no token, is one without it. -/
theorem Block.tail (h : Block (p :: R)) (hp : ∀ kind, p.kind = .token kind →
    kind.opens = false ∧ kind.closes = none) : Block R := by
  refine ⟨fun r hr => h.ends r (List.mem_cons_of_mem _ hr), ?_⟩
  have hsettle := h.settles
  obtain ⟨kind, hk⟩ | hk := token_or_none p
  · obtain ⟨ho, hc⟩ := hp kind hk
    rw [kindsIn_of_token hk, settle, if_neg (by simp [ho]), hc] at hsettle
    exact hsettle
  · rwa [kindsIn_of_none hk] at hsettle

/-- A block does not begin with a bracket that closes another. -/
theorem Block.closes_eq_none (h : Block (p :: R)) {kind : TokenKind} (hp : p.kind = .token kind)
    (ho : kind.opens = false) : kind.closes = none := by
  have hsettle := h.settles
  rw [kindsIn_of_token hp, settle, if_neg (by simp [ho])] at hsettle
  cases hc : kind.closes with
  | none => rfl
  | some openers =>
    rw [hc] at hsettle
    cases hsettle

/-! ## 2. Partners -/

/-- A bracket and the bracket that closes a block after it are partners. -/
theorem partnerAt_of_cut (hl : tokenize source = .ok l) (hcut : cut source = A ++ p :: (M ++ q :: Q))
    (h : Bracketed p M q) : l.partnerAt (countIn A) = some (countIn A + 1 + countIn M) := by
  obtain ⟨o, d, hp, hq, hopens, hcloses, openers, hopeners, hmem⟩ := h.kinds
  obtain ⟨r, hr, hsize, hpartners⟩ := partner_of_cut (P := A ++ p :: (M ++ [q])) (Q := Q)
    (by simpa using hcut) hl
  rw [takeAll_append] at hr
  obtain ⟨r₁, hr₁, hr⟩ := Option.bind_eq_some_iff.mp hr
  rw [Reading.takeAll] at hr
  obtain ⟨r₂, hr₂, hr⟩ := Option.bind_eq_some_iff.mp hr
  rw [takeAll_append] at hr
  obtain ⟨r₃, hr₃, hr⟩ := Option.bind_eq_some_iff.mp hr
  rw [Reading.takeAll] at hr
  obtain ⟨r₄, hr₄, hr⟩ := Option.bind_eq_some_iff.mp hr
  obtain rfl : r₄ = r := Option.some.inj hr
  have hsize₁ : r₁.tokens.size = countIn A := by
    rw [size_of_takeAll hr₁, length_tokensIn, countIn]
    simp
  obtain ⟨t₂, hopened⟩ : ∃ t, r₂.opened = (countIn A, t) :: r₁.opened := by
    rw [Reading.take, hp] at hr₂
    cases Reading.token_eq_some.mp hr₂ with
    | plain ho => simp [hopens] at ho
    | opening => exact ⟨_, by rw [← hsize₁]⟩
    | closing ho => simp [hopens] at ho
  -- the block leaves the bracket open
  obtain ⟨b, hb⟩ := h.block.exists_balanced
  obtain ⟨r₃', hr₃', hemb⟩ := hb.takeAll r₂ (0 + Reading.extent A + Text.width p.text)
  obtain rfl : r₃ = r₃' := Option.some.inj (hr₃.symm.trans hr₃')
  have hopened₃ := hemb.opened
  rw [hb.2, hopened] at hopened₃
  simp only [List.map_nil, List.nil_append, List.map_cons] at hopened₃
  obtain ⟨⟨i, t⟩, rest, hr₃opened, hi, -⟩ := List.map_eq_cons_iff.mp hopened₃
  obtain ⟨rfl, -⟩ := Prod.mk.inj hi
  have hnested : r₃.Nested := ((Reading.Nested.empty.takeAll hr₁).take hr₂).takeAll hr₃
  rw [Reading.take, hq] at hr₄
  cases Reading.token_eq_some.mp hr₄ with
  | plain _ hc => simp [hopeners] at hc
  | opening ho => simp [hcloses] at ho
  | @closing openers' j t' rest' _ _ hop _ =>
    obtain ⟨hij, -⟩ := List.cons.inj (hr₃opened.symm.trans hop)
    obtain ⟨rfl, rfl⟩ := Prod.mk.inj hij
    obtain ⟨u, hu, -⟩ := hnested.opened (countIn A, t) (by rw [hop]; simp)
    have hpartner := (hpartners (countIn A) { u with partner := some r₃.tokens.size }
      (Reading.getElem?_close.mpr (.inr (.inr ⟨rfl, u, hu, rfl⟩)))).1 _ rfl
    rw [hpartner]
    have hsize₃ : r₃.tokens.size + 1 = countIn (A ++ p :: (M ++ [q])) := by
      rw [countIn, ← hsize]
      simp
    rw [countIn_append, ← List.singleton_append, countIn_append, countIn_append,
      countIn_singleton hp, countIn_singleton hq] at hsize₃
    exact congrArg some (by omega)

/-- The brackets that are open in a reading tell how its words can go on. -/
theorem settle_of_takeAll {r r' : Reading} {offset : Nat} {ps : List Piece}
    (h : r.takeAll offset ps = some r') :
    settle (r.opened.map fun x => x.2.kind) (kindsIn ps) = some (r'.opened.map fun x => x.2.kind) := by
  induction ps generalizing r offset with
  | nil =>
    obtain rfl := Option.some.inj h
    rfl
  | cons p ps ih =>
    rw [Reading.takeAll] at h
    obtain ⟨r₁, hr₁, hrest⟩ := Option.bind_eq_some_iff.mp h
    have hlater := ih hrest
    unfold Reading.take at hr₁
    cases hp : p.kind with
    | blank | comment | doc | markup =>
      rw [hp] at hr₁
      obtain rfl := Option.some.inj hr₁
      rwa [kindsIn_of_none (by simp [wordOf, hp])]
    | broken d =>
      rw [hp] at hr₁
      cases hr₁
    | token kind =>
      rw [hp] at hr₁
      rw [kindsIn_of_token hp, settle]
      cases Reading.token_eq_some.mp hr₁ with
      | plain opens closes =>
        rw [if_neg (by simp [opens]), closes]
        exact hlater
      | opening opens =>
        rw [if_pos opens]
        exact hlater
      | closing opens closes opened pairs =>
        rw [if_neg (by simp [opens]), closes, opened]
        simp only [List.map_cons, if_pos pairs]
        exact hlater

/-- A bracket, what it encloses, and its partner. -/
theorem exists_bracket (hl : tokenize source = .ok l) {i j : Nat} (h : l.partnerAt i = some j)
    (hij : i < j) :
    ∃ A p M q Q, cut source = A ++ p :: (M ++ q :: Q) ∧ countIn A = i ∧ i + 1 + countIn M = j ∧
      Bracketed p M q := by
  obtain ⟨o, d, ho, -, hopens, -⟩ := (nested_of_tokenize hl).kinds_of_partner h hij
  obtain ⟨t, ht, rfl⟩ := Option.map_eq_some_iff.mp ho
  obtain ⟨A, p, R, hcut, hp, -, hA, -⟩ := exists_piece hl ht
  obtain ⟨r, hr, hopened, -⟩ := tokenize_eq_ok.mp hl
  have hsettle := settle_of_takeAll hr
  rw [hcut, kindsIn_append, settle_append, hopened] at hsettle
  obtain ⟨S, -, hS⟩ := Option.bind_eq_some_iff.mp hsettle
  rw [kindsIn_of_token hp, settle, if_pos hopens] at hS
  obtain ⟨M, q, Q, d, openers, rfl, hq, hM, hdopens, hcloses, hmem, -⟩ :=
    exists_closer (N := []) hS (Nat.zero_le _)
  have hends : ∀ r ∈ M, ∀ e, r.kind ≠ .broken e :=
    fun r hr e => ne_broken_of_tokenize hl (by rw [hcut]; simp [hr]) e
  have hb : Bracketed p M q := ⟨⟨_, d, hp, hq, hopens, hdopens, openers, hcloses, hmem⟩, hends, hM⟩
  have hpartner := partnerAt_of_cut hl hcut hb
  rw [hA, h] at hpartner
  exact ⟨A, p, M, q, Q, hcut, hA, (Option.some.inj hpartner).symm, hb⟩

end Crosslink.Source
