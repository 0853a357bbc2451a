import Crosslink.Proofs.Parting

/-!
# Blocks of pieces

Whether the brackets of some pieces pair among themselves is told by their words alone. Pieces of
which it is so are a block: they can be put into a source that is read, and taken out of one.

* §1 `settle`, the brackets that some words leave open.
* §2 `exists_with_block` and `exists_without_block`, two sources of which one has a block more.
* §3 The words of such a source.
-/

namespace Crosslink.Source

open TokenSequence

variable {source source' : Text} {p : Piece} {P Q M : List Piece}

/-! ## 1. Words and brackets -/

/-- The brackets left open, innermost first, when tokens of some kinds come after open brackets, if
every bracket they close is open. -/
def settle : List TokenKind → List TokenKind → Option (List TokenKind)
  | opened, [] => some opened
  | opened, kind :: kinds =>
    if kind.opens then settle (kind :: opened) kinds
    else match kind.closes with
      | none => settle opened kinds
      | some openers =>
        match opened with
        | [] => none
        | o :: rest => if openers.contains o then settle rest kinds else none

/-- The kinds of the tokens among some pieces. -/
def kindsIn (ps : List Piece) : List TokenKind := (ps.filterMap wordOf).map Prod.fst

theorem kindsIn_cons (p : Piece) (ps : List Piece) :
    kindsIn (p :: ps) = ((wordOf p).map Prod.fst).toList ++ kindsIn ps := by
  unfold kindsIn
  rw [List.filterMap_cons]
  cases wordOf p <;> rfl

theorem kindsIn_append (ps qs : List Piece) : kindsIn (ps ++ qs) = kindsIn ps ++ kindsIn qs := by
  simp [kindsIn]

/-- The number of tokens among some pieces. -/
def countIn (ps : List Piece) : Nat := (ps.filterMap wordOf).length

theorem countIn_append (ps qs : List Piece) : countIn (ps ++ qs) = countIn ps + countIn qs := by
  simp [countIn]

theorem settle_append (opened kinds kinds' : List TokenKind) :
    settle opened (kinds ++ kinds') = (settle opened kinds).bind fun o => settle o kinds' := by
  fun_induction settle opened kinds with
  | case1 opened => rfl
  | case2 opened kind kinds hopens ih =>
    rw [List.cons_append, settle, if_pos hopens, ih]
  | case3 opened kind kinds hopens hcloses ih =>
    rw [List.cons_append, settle, if_neg hopens, hcloses]
    exact ih
  | case4 kind kinds hopens openers hcloses =>
    rw [List.cons_append, settle, if_neg hopens, hcloses]
    rfl
  | case5 kind kinds hopens openers hcloses o rest hmem ih =>
    rw [List.cons_append, settle, if_neg hopens, hcloses]
    simp only [if_pos hmem, ih]
  | case6 kind kinds hopens openers hcloses o rest hmem =>
    rw [List.cons_append, settle, if_neg hopens, hcloses]
    simp only [if_neg hmem]
    rfl

/-- Words that hold no bracket leave the open brackets alone. -/
theorem settle_of_plain {kinds : List TokenKind}
    (h : ∀ kind ∈ kinds, kind.opens = false ∧ kind.closes = none) (opened : List TokenKind) :
    settle opened kinds = some opened := by
  induction kinds with
  | nil => rfl
  | cons kind kinds ih =>
    obtain ⟨hopens, hcloses⟩ := h kind (by simp)
    rw [settle, hopens, hcloses]
    exact ih fun k hk => h k (List.mem_cons_of_mem _ hk)

theorem takeAll_of_settle {ps : List Piece} (hp : ∀ p ∈ ps, ∀ d, p.kind ≠ .broken d)
    {r : Reading} {opened : List TokenKind}
    (h : settle (r.opened.map fun x => x.2.kind) (kindsIn ps) = some opened) (offset : Nat) :
    ∃ r', r.takeAll offset ps = some r' ∧ r'.opened.map (fun x => x.2.kind) = opened := by
  induction ps generalizing r offset with
  | nil => exact ⟨r, rfl, Option.some.inj h⟩
  | cons p ps ih =>
    have hps : ∀ q ∈ ps, ∀ d, q.kind ≠ .broken d := fun q hq => hp q (List.mem_cons_of_mem _ hq)
    rw [kindsIn_cons] at h
    have hskip : ∀ r' : Reading, r.take offset p = some r' → wordOf p = none →
        r'.opened = r.opened → ∃ r'', r.takeAll offset (p :: ps) = some r'' ∧
          r''.opened.map (fun x => x.2.kind) = opened := by
      intro r' hr' hword hopened
      rw [hword, ← hopened] at h
      obtain ⟨r'', hr'', hlast⟩ := ih hps h (offset + Text.width p.text)
      exact ⟨r'', by rw [Reading.takeAll, hr']; exact hr'', hlast⟩
    cases hk : p.kind with
    | blank | comment | markup =>
      exact hskip r (by simp [Reading.take, hk]) (by simp [wordOf, hk]) rfl
    | doc =>
      exact hskip { r with docs := ⟨offset, offset + Text.width p.text⟩ :: r.docs }
        (by rw [Reading.take, hk]) (by simp [wordOf, hk]) rfl
    | broken d => exact absurd hk (hp p (by simp) d)
    | token kind =>
      have hword : wordOf p = some (kind, p.text) := by simp [wordOf, hk]
      rw [hword] at h
      simp only [Option.map_some, Option.toList_some, List.singleton_append] at h
      generalize ht : (⟨kind, ⟨offset, offset + Text.width p.text⟩, p.text, none⟩ : Token) = t
      have hkind : t.kind = kind := by rw [← ht]
      suffices ∃ r', Reading.Adds r t r' ∧
          settle (r'.opened.map fun x => x.2.kind) (kindsIn ps) = some opened by
        obtain ⟨r', hadds, hsettle⟩ := this
        have htake : r.take offset p = some r' := by
          rw [Reading.take, hk]
          exact Reading.token_eq_some.mpr (by rw [ht]; exact hadds)
        obtain ⟨r'', hr'', hlast⟩ := ih hps hsettle (offset + Text.width p.text)
        exact ⟨r'', by rw [Reading.takeAll, htake]; exact hr'', hlast⟩
      rw [settle] at h
      split at h
      · rename_i hopens
        exact ⟨_, .opening (by rw [hkind]; exact hopens), by simpa [hkind] using h⟩
      · rename_i hopens
        have hopens' : t.kind.opens = false := by rw [hkind]; exact Bool.eq_false_iff.mpr hopens
        split at h
        · rename_i hcloses
          exact ⟨_, .plain hopens' (by rw [hkind]; exact hcloses), h⟩
        · rename_i openers hcloses
          cases ho : r.opened with
          | nil => simp [ho] at h
          | cons x rest =>
            rw [ho] at h
            simp only [List.map_cons] at h
            split at h
            · rename_i hmem
              exact ⟨_, .closing hopens' (by rw [hkind]; exact hcloses) (i := x.1) (o := x.2) ho hmem,
                h⟩
            · cases h

/-- Pieces that all end and whose brackets pair among themselves. -/
structure Block (ps : List Piece) : Prop where
  ends : ∀ p ∈ ps, ∀ d, p.kind ≠ .broken d
  settles : settle [] (kindsIn ps) = some []

theorem Block.exists_balanced (h : Block M) : ∃ b, Balanced M b := by
  obtain ⟨b, hb, hopened⟩ := takeAll_of_settle h.ends (r := {}) h.settles 0
  exact ⟨b, hb, by simpa using hopened⟩

/-! ## 2. Two sources -/

theorem size_of_balanced {b : Reading} (h : Balanced M b) :
    b.tokens.size = (M.filterMap wordOf).length := by
  rw [size_of_takeAll h.1, length_tokensIn]
  simp

/-- A block can be put into a source that is read. -/
theorem exists_with_block {l : TokenSequence} (h : cut source = P ++ Q)
    (h' : cut source' = P ++ (M ++ Q)) (hM : Block M) (hl : tokenize source = .ok l) :
    ∃ l' block, tokenize source' = .ok l' ∧
      Inserted (P.filterMap wordOf).length (M.filterMap wordOf).length block
        (P.flatMap Piece.text) (M.flatMap Piece.text) l l' := by
  obtain ⟨b, hb⟩ := hM.exists_balanced
  obtain ⟨l', hl', hins⟩ := exists_inserted h h' hb hl
  rw [length_tokensIn, size_of_balanced hb] at hins
  exact ⟨l', b.tokens, hl', hins⟩

/-- A block can be taken out of a source that is read. -/
theorem exists_without_block {l' : TokenSequence} (h : cut source = P ++ Q)
    (h' : cut source' = P ++ (M ++ Q)) (hM : Block M) (hl' : tokenize source' = .ok l') :
    ∃ l block, tokenize source = .ok l ∧
      Inserted (P.filterMap wordOf).length (M.filterMap wordOf).length block
        (P.flatMap Piece.text) (M.flatMap Piece.text) l l' := by
  obtain ⟨b, hb⟩ := hM.exists_balanced
  obtain ⟨l, hl, hins⟩ := exists_inserted' h h' hb hl'
  rw [length_tokensIn, size_of_balanced hb] at hins
  exact ⟨l, b.tokens, hl, hins⟩

/-! ## 3. Words -/

variable {l l' : TokenSequence}

theorem kindAt_eq (l : TokenSequence) (i : Nat) : l.kindAt i = (l.wordAt i).map Prod.fst := by
  unfold kindAt wordAt
  cases l.tokens[i]? <;> rfl

theorem wordAt_block (hl : tokenize source = .ok l) (h : cut source = P ++ (M ++ Q)) {j : Nat}
    (hj : j < (M.filterMap wordOf).length) :
    l.wordAt ((P.filterMap wordOf).length + j) = (M.filterMap wordOf)[j]? := by
  rw [wordAt_eq hl, h, List.filterMap_append, List.getElem?_append_right (by omega),
    List.filterMap_append, List.getElem?_append_left (by omega)]
  congr 1
  omega

theorem wordAt_before (hl : tokenize source = .ok l) (h : cut source = P ++ Q) {i : Nat}
    (hi : i < (P.filterMap wordOf).length) : l.wordAt i = (P.filterMap wordOf)[i]? := by
  rw [wordAt_eq hl, h, List.filterMap_append, List.getElem?_append_left hi]

theorem wordAt_after (hl : tokenize source = .ok l) (h : cut source = P ++ Q) (j : Nat) :
    l.wordAt ((P.filterMap wordOf).length + j) = (Q.filterMap wordOf)[j]? := by
  rw [wordAt_eq hl, h, List.filterMap_append, List.getElem?_append_right (by omega)]
  congr 1
  omega

/-- A token that is no bracket has no partner. -/
theorem partnerAt_of_plain (hl : l.Nested) {i : Nat} {kind : TokenKind}
    (hk : l.kindAt i = some kind) (hopens : kind.opens = false) (hcloses : kind.closes = none) :
    l.partnerAt i = none := by
  cases hq : l.partnerAt i with
  | none => rfl
  | some q =>
    obtain ⟨t, ht, htq⟩ := partnerAt_eq_some.mp hq
    rw [kindAt, ht] at hk
    obtain rfl := Option.some.inj hk
    obtain ⟨u, -, -, ⟨-, hopens', -⟩ | ⟨-, -, -, openers, hcloses', -⟩⟩ := hl.pair i t q ht htq
    · rw [hopens] at hopens'
      cases hopens'
    · rw [hcloses] at hcloses'
      cases hcloses'

/-- A token that opens no bracket is the last of what begins with it. -/
theorem lastOf_of_plain (hl : l.Nested) {i : Nat} {kind : TokenKind} (hk : l.kindAt i = some kind)
    (hopens : kind.opens = false) : l.lastOf i = i := by
  unfold lastOf
  split
  · rename_i q hq
    split
    · rename_i hlt
      obtain ⟨o, d, ho, -, ho', -⟩ := hl.kinds_of_partner hq hlt
      rw [hk] at ho
      obtain rfl := Option.some.inj ho
      rw [hopens] at ho'
      cases ho'
    · rfl
  · rfl

end Crosslink.Source
