import Crosslink.Proofs.Blocks

/-!
# Excerpts of a source

The pieces up to a token and those between two tokens, and what stands between the slots of a list.

* `exists_piece` and `prefix_of_count`, the pieces up to a token.
-/

namespace Crosslink.Source

open TokenSequence

variable {source : Text} {l : TokenSequence} {A A' C M Q : List Piece} {p q : Piece} {i j : Nat}

/-! ## 1. Pieces up to a token -/

/-- The piece that a token is, with the pieces before and after it. -/
theorem exists_piece (hl : tokenize source = .ok l) {t : Token} (ht : l.tokens[i]? = some t) :
    ∃ A p R, cut source = A ++ p :: R ∧ p.kind = .token t.kind ∧ p.text = t.text ∧
      countIn A = i ∧ Reading.extent A = t.span.start ∧ Reading.extent (A ++ [p]) = t.span.stop := by
  obtain ⟨A, p, R, hcut, hkind, htext, hspan, hlen⟩ := exists_pieces hl ht
  rw [length_tokensIn] at hlen
  refine ⟨A, p, R, hcut, hkind, htext, hlen, by rw [hspan], ?_⟩
  rw [hspan, extent_append, extent_cons, htext]
  simp [Reading.extent]

theorem countIn_singleton {kind : TokenKind} (hp : p.kind = .token kind) : countIn [p] = 1 := by
  simp [countIn, wordOf, hp]

theorem countIn_le_of_prefix (h : A <+: A') : countIn A ≤ countIn A' :=
  (h.filterMap wordOf).length_le

/-- Of two beginnings of a source, the one with fewer tokens before its last piece begins the
other. -/
theorem prefix_of_count (h : A ++ [q] <+: C) (h' : A' <+: C) (hlt : countIn A < countIn A') :
    A ++ [q] <+: A' := by
  obtain hle | hle := Nat.le_total (A ++ [q]).length A'.length
  · exact List.prefix_of_prefix_length_le h h' hle
  · have hpre := List.prefix_of_prefix_length_le h' h hle
    obtain heq | hpre := List.prefix_concat_iff.mp hpre
    · exact heq ▸ List.prefix_refl _
    · have := countIn_le_of_prefix hpre
      omega

/-- The pieces before a token and after it are told by its place. -/
theorem eq_of_countIn {R R' : List Piece} {p p' : Piece} {kind kind' : TokenKind} (h : C = A ++ p :: R)
    (h' : C = A' ++ p' :: R') (hp : p.kind = .token kind) (hp' : p'.kind = .token kind')
    (hcount : countIn A = countIn A') : A = A' ∧ p = p' ∧ R = R' := by
  have hleft : A ++ [p] <+: C := ⟨R, by rw [h]; simp⟩
  have hright : A' ++ [p'] <+: C := ⟨R', by rw [h']; simp⟩
  have hlt : countIn A < countIn (A' ++ [p']) := by
    rw [countIn_append, countIn_singleton hp']
    omega
  have hlt' : countIn A' < countIn (A ++ [p]) := by
    rw [countIn_append, countIn_singleton hp]
    omega
  have hsame := (prefix_of_count hleft hright hlt).eq_of_length_le
    (prefix_of_count hright hleft hlt').length_le
  obtain ⟨rfl, hlast⟩ := List.append_inj' hsame rfl
  rw [h] at h'
  obtain ⟨rfl, hrest⟩ := List.cons.inj (List.append_cancel_left h')
  exact ⟨rfl, rfl, hrest⟩

/-- The first piece of an excerpt stands off what is before it, when its first token does. -/
theorem isBreak_of_first (hends : ∀ d, p.kind ≠ .broken d) {kind : TokenKind}
    (h : (kindsIn (p :: M)).head? = some kind) (hkind : (PieceKind.token kind).isBreak = true) :
    p.kind.isBreak = true := by
  cases hk : p.kind with
  | token k =>
    have hword : wordOf p = some (k, p.text) := by simp [wordOf, hk]
    rw [kindsIn_cons, hword] at h
    obtain rfl : k = kind := by simpa using h
    exact hkind
  | broken d => exact absurd hk (hends d)
  | blank | comment | doc | markup => rfl

theorem kindsIn_eq (hl : tokenize source = .ok l) (hcut : cut source = A ++ (M ++ Q)) {j : Nat}
    (hj : j < countIn M) : (kindsIn M)[j]? = l.kindAt (countIn A + j) := by
  rw [kindAt_eq, countIn, wordAt_block hl hcut hj, kindsIn, List.getElem?_map]

theorem length_kindsIn (ps : List Piece) : (kindsIn ps).length = countIn ps := by
  simp [kindsIn, countIn]

end Crosslink.Source
