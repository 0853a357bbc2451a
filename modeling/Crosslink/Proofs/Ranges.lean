import Crosslink.Proofs.Operands
import Crosslink.Proofs.Slots

/-!
# Ranges of tokens as ranges of pieces

A range of tokens covers a range of the pieces of its source, and so a part of its text. What an
argument says is told by its text alone, so an argument that is read holds no token but the words it
is written with.

* §1 The pieces from a place on, and how a place shows in the text.
* §2 `exists_range`, the pieces that a range of tokens covers.
* §3 `words_of_parse`, the tokens of an argument that is read.
-/

namespace Crosslink.Source

variable {text source : Text} {P Q R : List Piece}

/-! ## 1. The pieces from a place on -/

theorem cutCode_suffix (h : cutCode text = P ++ Q) : Q = cutCode (Q.flatMap Piece.text) := by
  induction P generalizing text with
  | nil =>
    have hQ : cutCode text = Q := h
    rw [← hQ, cutCode_flatten]
  | cons p P ih =>
    cases text with
    | nil => simp [cutCode] at h
    | cons c cs =>
      rw [cutCode_cons] at h
      exact ih (List.cons.inj h).2

theorem cut_suffix (h : cut source = P ++ Q) (hP : P ≠ []) : Q = cutCode (Q.flatMap Piece.text) := by
  unfold cut at h
  split at h
  · cases P with
    | nil => exact absurd rfl hP
    | cons p P => exact cutCode_suffix (List.cons.inj h).2
  · exact cutCode_suffix h

theorem cut_suffix_of_ne_markup {q : Piece} (h : cut source = P ++ q :: Q) (hq : q.kind ≠ .markup) :
    q :: Q = cutCode ((q :: Q).flatMap Piece.text) := by
  unfold cut at h
  split at h
  · cases P with
    | nil =>
      obtain ⟨rfl, -⟩ := List.cons.inj h
      exact absurd rfl hq
    | cons p P => exact cutCode_suffix (List.cons.inj h).2
  · exact cutCode_suffix h

theorem text_ne_nil_of_mem_cutCode {p : Piece} (h : p ∈ cutCode text) : p.text ≠ [] := by
  fun_induction cutCode text with
  | case1 => cases h
  | case2 c cs kind n hmeasure ih =>
    obtain rfl | h := List.mem_cons.mp h
    · simp
    · exact ih h

/-- Pieces put together tell how far they go. -/
theorem eq_of_flatMap_eq {P' Q' : List Piece} (h : P ++ Q = P' ++ Q')
    (hne : ∀ p ∈ P ++ Q, p.text ≠ []) (htext : P.flatMap Piece.text = P'.flatMap Piece.text) :
    P = P' := by
  induction P generalizing P' with
  | nil =>
    cases P' with
    | nil => rfl
    | cons p P' =>
      have hp := hne p (by rw [h]; simp)
      simp only [List.flatMap_nil, List.flatMap_cons, List.nil_eq, List.append_eq_nil_iff] at htext
      exact absurd htext.1 hp
  | cons p P ih =>
    cases P' with
    | nil =>
      have hp := hne p (by simp)
      simp only [List.flatMap_nil, List.flatMap_cons, List.append_eq_nil_iff] at htext
      exact absurd htext.1 hp
    | cons p' P' =>
      obtain ⟨rfl, h'⟩ := List.cons.inj h
      simp only [List.flatMap_cons, List.append_cancel_left_eq] at htext
      rw [ih h' (fun q hq => hne q (List.mem_cons_of_mem _ hq)) htext]

/-- The kinds of pieces that no name goes on with, nor anything but a lone slash or question mark. -/
def PieceKind.isBreak : PieceKind → Bool
  | .blank | .comment | .doc | .markup => true
  | .token kind => kind = .comma || kind = .closeParen || kind = .closeBracket || kind = .closeBrace
  | .broken _ => false

/-- The characters that such pieces begin with. -/
def breakChars : List Char := [' ', '\t', '\n', '\x0c', '\r', ',', ')', ']', '}', '#', '/', '?']

theorem mem_breakChars {c : Char} {cs : Text} (h : (measure c cs).1.isBreak = true) :
    c ∈ breakChars := by
  simp only [breakChars, List.mem_cons, List.not_mem_nil, or_false]
  revert h
  fun_cases measure c cs <;> intro h <;>
    first | exact Bool.noConfusion h | (simp_all [isAsciiBlank]; done) | grind [isAsciiBlank]

theorem breaks_of_mem {c : Char} (h : c ∈ breakChars) (cs : Text) : Breaks (c :: cs) := by
  simp only [breakChars, List.mem_cons, List.not_mem_nil, or_false] at h
  obtain rfl | rfl | rfl | rfl | rfl | rfl | rfl | rfl | rfl | rfl | rfl | rfl := h <;>
    exact .cons (by decide) (by decide)

theorem head_of_isBreak {r : Piece} (h : r :: R = cutCode ((r :: R).flatMap Piece.text))
    (hr : r.kind.isBreak = true) :
    ∃ c cs, (r :: R).flatMap Piece.text = c :: cs ∧ c ∈ breakChars := by
  generalize (r :: R).flatMap Piece.text = text at h ⊢
  cases text with
  | nil => simp [cutCode] at h
  | cons c cs =>
    refine ⟨c, cs, rfl, ?_⟩
    rw [cutCode_cons] at h
    obtain ⟨rfl, -⟩ := List.cons.inj h
    exact mem_breakChars hr

/-- A source that is read has no piece without an end. -/
theorem ne_broken_of_tokenize {l : TokenSequence} (h : tokenize source = .ok l) {p : Piece}
    (hp : p ∈ cut source) (d : Defect) : p.kind ≠ .broken d := by
  intro hk
  obtain ⟨r, hr, -⟩ := tokenize_eq_ok.mp h
  obtain ⟨P, Q, hcut⟩ := List.append_of_mem hp
  rw [hcut, takeAll_append] at hr
  obtain ⟨r₀, -, hr⟩ := Option.bind_eq_some_iff.mp hr
  obtain ⟨r₁, hr₁, -⟩ := Option.bind_eq_some_iff.mp hr
  simp [Reading.take, hk] at hr₁

/-! ## 2. Ranges -/

theorem words_tokensIn (offset : Nat) (ps : List Piece) :
    (tokensIn offset ps).map (fun t => (t.kind, t.text)) = ps.filterMap wordOf := by
  induction ps generalizing offset with
  | nil => rfl
  | cons p ps ih =>
    rw [tokensIn, List.map_append, ih, List.filterMap_cons]
    unfold tokenAt wordOf
    split <;> simp_all

theorem length_tokensIn (offset : Nat) (ps : List Piece) :
    (tokensIn offset ps).length = (ps.filterMap wordOf).length := by
  rw [← words_tokensIn offset, List.length_map]

/-- The word that a token is. -/
def TokenSequence.wordAt (l : TokenSequence) (i : Nat) : Option Word :=
  l.tokens[i]?.map fun t => (t.kind, t.text)

theorem wordAt_eq {l : TokenSequence} (h : tokenize source = .ok l) (i : Nat) :
    l.wordAt i = ((cut source).filterMap wordOf)[i]? := by
  rw [← words_tokensIn 0, ← (bare_of_tokenize h).1, List.map_map, List.getElem?_map,
    Array.getElem?_toList]
  rfl

/-- The pieces that a range of tokens covers. -/
theorem exists_range {l : TokenSequence} (h : tokenize source = .ok l) {f t : Nat} {u v : Token}
    (hft : f ≤ t) (hu : l.tokens[f]? = some u) (hv : l.tokens[t]? = some v) :
    ∃ P p ps R, cut source = P ++ (p :: ps ++ R) ∧ p.kind = .token u.kind ∧
      (P.filterMap wordOf).length = f ∧ ((p :: ps).filterMap wordOf).length = t + 1 - f ∧
      (∃ qs q, p :: ps = qs ++ [q] ∧ q.kind = .token v.kind) ∧
      u.span.start = Reading.extent P ∧
      v.span.stop = Reading.extent P + Reading.extent (p :: ps) := by
  obtain ⟨P, p, Q, hcut, hp, hptext, hspan, hP⟩ := exists_pieces h hu
  obtain ⟨P', p', R, hcut', hp', hptext', hspan', hP'⟩ := exists_pieces h hv
  rw [length_tokensIn] at hP hP'
  have hword : wordOf p' = some (v.kind, v.text) := by simp [wordOf, hp', hptext']
  have hlen : ((P' ++ [p']).filterMap wordOf).length = t + 1 := by
    rw [List.filterMap_append, List.length_append, hP']
    simp [hword]
  have hcut'' : cut source = (P' ++ [p']) ++ R := by rw [hcut']; simp
  obtain ⟨ps, hps⟩ : P <+: P' ++ [p'] := by
    refine List.prefix_of_prefix_length_le (hcut ▸ List.prefix_append _ _ : P <+: cut source)
      (hcut'' ▸ List.prefix_append _ _) ?_
    by_cases hle : P.length ≤ (P' ++ [p']).length
    · exact hle
    · have hpre : P' ++ [p'] <+: P := List.prefix_of_prefix_length_le
        (hcut'' ▸ List.prefix_append _ _) (hcut ▸ List.prefix_append _ _ : P <+: cut source)
        (by omega)
      have := (hpre.filterMap wordOf).length_le
      omega
  cases ps with
  | nil =>
    rw [List.append_nil] at hps
    rw [← hps] at hlen
    omega
  | cons q ps =>
    have hall : P ++ p :: Q = P ++ (q :: ps ++ R) := by
      rw [← hcut, hcut'', ← hps, List.append_assoc]
    obtain ⟨rfl, -⟩ := List.cons.inj (List.append_cancel_left hall)
    refine ⟨P, p, ps, R, by rw [hcut'', ← hps, List.append_assoc], hp, hP, ?_, ?_, ?_, ?_⟩
    · rw [← hps, List.filterMap_append, List.length_append, hP] at hlen
      omega
    · obtain hnil | ⟨qs, q, hq⟩ := List.eq_nil_or_concat (p :: ps)
      · cases hnil
      · rw [List.concat_eq_append] at hq
        rw [hq, ← List.append_assoc] at hps
        obtain rfl : q = p' := (List.append_singleton_inj.mp hps).2
        exact ⟨qs, q, hq, hp'⟩
    · rw [hspan]
    · rw [hspan', ← extent_append, hps, extent_append]
      simp [Reading.extent, hptext']

/-! ## 3. Arguments that are read -/

/-- Pieces whose text is an argument that is read are the words it is written with, with blanks
around them, when no name goes on after them. -/
theorem spells_of_parse (hcode : P ++ R = cutCode ((P ++ R).flatMap Piece.text))
    (hrest : Breaks (R.flatMap Piece.text)) {e : Expression}
    (he : Expression.parse (P.flatMap Piece.text) = .ok e) : ∃ ws, e.Written ws ∧ Spells P ws := by
  obtain ⟨qs, ws, hcuts, hwritten, hspells⟩ := exists_words he hrest
  have hqs : qs.flatMap Piece.text = P.flatMap Piece.text := by
    have := congrArg (List.flatMap Piece.text) hcuts
    rw [cutCode_flatten, List.flatMap_append, cutCode_flatten] at this
    exact (List.append_cancel_right this).symm
  have hall : P ++ R = qs ++ cutCode (R.flatMap Piece.text) := by
    rw [← hcuts, ← List.flatMap_append]
    exact hcode
  have hne : ∀ q ∈ P ++ R, q.text ≠ [] := by
    intro q hq
    rw [hcode] at hq
    exact text_ne_nil_of_mem_cutCode hq
  obtain rfl := eq_of_flatMap_eq hall hne hqs.symm
  exact ⟨ws, hwritten, hspells⟩

/-- The tokens of an argument that is read are the words it is written with, when no name goes on
after it. -/
theorem words_of_parse {l : TokenSequence} (h : tokenize source = .ok l) {f t : Nat} {u v : Token}
    (hft : f ≤ t) (hu : l.tokens[f]? = some u) (hv : l.tokens[t]? = some v) {e : Expression}
    (he : Expression.parse (l.argument source f t).text = .ok e)
    (hnext : ∀ w, l.tokens[t + 1]? = some w → (PieceKind.token w.kind).isBreak = true) :
    ∃ ws, e.Written ws ∧ ws.length = t + 1 - f ∧ ∀ j, j < ws.length → l.wordAt (f + j) = ws[j]? := by
  obtain ⟨P, p, ps, R, hcut, hp, hP, hps, -, hstart, hstop⟩ := exists_range h hft hu hv
  have hsource : source = P.flatMap Piece.text ++
      ((p :: ps).flatMap Piece.text ++ R.flatMap Piece.text) := by
    conv => lhs; rw [← cut_flatten source, hcut, List.flatMap_append, List.flatMap_append]
  have htext : (l.argument source f t).text = (p :: ps).flatMap Piece.text := by
    have hspan : (l.argument source f t).text =
        Text.slice (Reading.extent P) (Reading.extent P + Reading.extent (p :: ps)) source := by
      simp only [TokenSequence.argument, TokenSequence.stopAt, hu, hv, Span.slice, Option.map_some,
        Option.getD_some, hstart, hstop]
    rw [hspan]
    conv => lhs; rw [hsource]
    exact Text.slice_middle _ _ _
  have hcode := cut_suffix_of_ne_markup (P := P) (q := p) (Q := ps ++ R) hcut (by rw [hp]; simp)
  have hrest : Breaks (R.flatMap Piece.text) := by
    cases R with
    | nil => exact .nil
    | cons r R =>
      have hr : r.kind.isBreak = true := by
        cases hk : r.kind with
        | token kind =>
          have hword : l.wordAt (t + 1) = some (kind, r.text) := by
            rw [wordAt_eq h, hcut, List.filterMap_append, List.getElem?_append_right (by omega),
              List.filterMap_append, List.getElem?_append_right (by omega), hP, hps]
            simp [wordOf, hk]
          obtain ⟨w, hw, hwk⟩ := Option.map_eq_some_iff.mp hword
          have := hnext w hw
          rwa [(Prod.mk.inj hwk).1] at this
        | broken d => exact absurd hk (ne_broken_of_tokenize h (by rw [hcut]; simp) d)
        | _ => rfl
      obtain ⟨c, cs, hc, hmem⟩ := head_of_isBreak (cutCode_suffix (P := p :: ps) hcode.symm) hr
      rw [hc]
      exact breaks_of_mem hmem cs
  rw [htext] at he
  obtain ⟨ws, hwritten, hspells⟩ := spells_of_parse (P := p :: ps) hcode hrest he
  refine ⟨ws, hwritten, by rw [← hspells.words, hps], fun j hj => ?_⟩
  rw [wordAt_eq h, hcut, List.filterMap_append, List.getElem?_append_right (by omega),
    List.filterMap_append, hspells.words, List.getElem?_append_left (by omega)]
  congr 1
  omega

end Crosslink.Source
