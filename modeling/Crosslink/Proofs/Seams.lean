import Crosslink.Proofs.Ranges

/-!
# Seams

Where a source is cut open between two pieces, what stands before the seam is cut as it was when the
last piece before it ends by itself. Blanks, brackets, commas and semicolons do, and so do block
comments and inline markup that ends with a full tag.

* §1 `Piece.seals`, the pieces that end by themselves.
* §2 `cut_of_seals`, a source that goes on another way after such a piece.
* §3 Where a tag can come from.
-/

namespace Crosslink.Source

variable {a b t t' u : Text} {source : Text} {p q : Piece} {P Q : List Piece}

/-! ## 1. Pieces that end by themselves -/

/-- The kinds of tokens that are one piece whatever comes after them. -/
def TokenKind.seals : TokenKind → Bool
  | openParen | closeParen | openBracket | closeBracket | openBrace | closeBrace => true
  | attrOpen | comma | semicolon => true
  | _ => false

/-- True for a piece that ends where it does whatever comes after it. -/
def Piece.seals (p : Piece) : Bool :=
  match p.kind with
  | .blank => true
  | .comment | .doc => ("/*" : Text).isPrefixOf p.text
  | .markup => !("<?" : Text).isSuffixOf p.text
  | .token kind => kind.seals
  | .broken _ => false

theorem measure_of_sealing {c : Char} {cs : Text} {kind : TokenKind}
    (h : (measure c cs).1 = .token kind) (hseals : kind.seals = true) :
    (stopKind c = some (.token kind) ∧ (measure c cs).2 = 0) ∨
      (c = '#' ∧ cs.head? = some '[' ∧ measure c cs = (.token .attrOpen, 1)) := by
  revert h
  fun_cases measure c cs <;> intro h <;> grind [stopKind, TokenKind.seals]

theorem measure_of_blank {c : Char} {cs : Text} (h : (measure c cs).1 = .blank) :
    stopKind c = some .blank ∧ (measure c cs).2 = 0 := by
  revert h
  fun_cases measure c cs <;> intro h <;> grind [stopKind]

theorem measure_of_markup {c : Char} {cs : Text} (h : (measure c cs).1 = .markup) :
    c = '?' ∧ cs.head? = some '>' := by
  revert h
  fun_cases measure c cs <;> intro h <;> grind

theorem measure_block (cs : Text) {n : Nat} (h : blockCommentLength cs = some n) :
    measure '/' ('*' :: cs) = (if cs.head? = some '*' && 3 ≤ n then .doc else .comment, 1 + n) := by
  simp [measure, isAsciiBlank, h]

theorem length_of_take {cs : Text} {n : Nat} (h : cs.drop n ≠ []) : (cs.take n).length = n := by
  rw [List.length_take]
  refine Nat.min_eq_left (Nat.le_of_not_lt fun hlt => h ?_)
  exact List.drop_eq_nil_of_le (Nat.le_of_lt hlt)

theorem solid_comment {cs : Text} (h : (measure '/' ('*' :: cs)).1 = .comment ∨
      (measure '/' ('*' :: cs)).1 = .doc)
    (hrest : ('*' :: cs).drop (measure '/' ('*' :: cs)).2 ≠ []) :
    Solid ('/' :: ('*' :: cs).take (measure '/' ('*' :: cs)).2)
      [⟨(measure '/' ('*' :: cs)).1, '/' :: ('*' :: cs).take (measure '/' ('*' :: cs)).2⟩] := by
  cases hn : blockCommentLength cs with
  | none => simp [measure, isAsciiBlank, hn] at h
  | some n =>
    have hm := measure_block cs hn
    rw [hm] at hrest ⊢
    simp only [Nat.add_comm 1 n, List.drop_succ_cons, List.take_succ_cons] at hrest ⊢
    have hlen := length_of_take hrest
    have htwo := two_le_blockCommentLength hn
    refine solid_of_measure fun x => ?_
    have hn' : blockCommentLength (cs.take n ++ x) = some n := by
      rw [← List.take_append_drop n cs] at hn
      exact blockCommentLength_append x hn (by omega)
    rw [List.cons_append, measure_block _ hn', List.length_cons, hlen, Nat.add_comm 1 n]
    have hhead : (cs.take n ++ x).head? = cs.head? := by
      cases cs with
      | nil => simp only [List.take_nil, List.length_nil] at hlen; omega
      | cons d cs =>
        obtain ⟨j, rfl⟩ : ∃ j, n = j + 1 := ⟨n - 1, by omega⟩
        rfl
    rw [hhead]

theorem tagLength_cons_append {d : Char} {w : Text}
    (h : tagLength (d :: (w ++ t)) = w.length + 1 + 1 + 1) (x : Text) :
    tagLength (d :: (w ++ x)) = tagLength (d :: (w ++ t)) := by
  by_cases hd : d = '='
  · subst hd
    have hno : ∀ y : Text, Text.sameLetters (List.take 3 ('=' :: y)) "php" = false := by
      intro y
      simp [Text.sameLetters, Text.lower]
    rw [tagLength, tagLength, hno, hno]
    rfl
  · have hlen : w.length = 2 := by
      unfold tagLength at h
      split at h
      · omega
      · simp [hd] at h
    cases w with
    | nil => simp at hlen
    | cons e w =>
      cases w with
      | nil => simp at hlen
      | cons f w =>
        obtain rfl : w = [] := by simpa using hlen
        simp [tagLength]

/-- Markup that ends with a full tag ends there whatever comes after it. -/
theorem markupLength_of_tag (ht : t ≠ []) (hlen : markupLength (u ++ t) = u.length)
    (htag : ¬ "<?".toList <:+ u) (x : Text) : markupLength (u ++ x) = u.length := by
  induction u with
  | nil =>
    have := pos_of_markupLength ht
    simp only [List.nil_append, List.length_nil] at hlen
    omega
  | cons c u ih =>
    have hu : ¬ "<?".toList <:+ u := fun h => htag (h.trans (List.suffix_cons c u))
    have hne : u ≠ [] := by
      rintro rfl
      rw [List.cons_append, List.nil_append, markupLength_cons, List.length_singleton] at hlen
      split at hlen
      · have := two_le_tagLength t.tail
        omega
      · have := pos_of_markupLength ht
        omega
    rw [List.cons_append, markupLength_cons] at hlen ⊢
    have hhead := head?_append_eq t x (List.length_pos_iff.mpr hne)
    rw [← hhead]
    split
    · rename_i hc
      rw [if_pos hc] at hlen
      obtain ⟨rfl, hc⟩ := hc
      obtain ⟨d, w, rfl⟩ := List.exists_cons_of_ne_nil hne
      obtain rfl : d = '?' := by simpa using hc
      simp only [List.cons_append, List.tail_cons, List.length_cons] at hlen ⊢
      rw [← hlen]
      cases w with
      | nil => exact absurd (List.suffix_refl _) htag
      | cons d w => exact tagLength_cons_append (by simpa using hlen) x
    · rename_i hc
      rw [if_neg hc] at hlen
      rw [ih (by simpa using hlen) hu]
      rfl

theorem solid_markup {cs : Text} {n : Nat} (h : measure '?' ('>' :: cs) = (.markup, n + 1))
    (hrest : cs.drop n ≠ []) (htag : ¬ "<?".toList <:+ cs.take n) :
    Solid ('?' :: '>' :: cs.take n) [⟨.markup, '?' :: '>' :: cs.take n⟩] := by
  have hm : ∀ x, measure '?' ('>' :: x) = (.markup, markupLength x + 1) := by
    intro x
    simp [measure, isAsciiBlank, Nat.add_comm]
  have hn : markupLength cs = n := by simpa [hm] using h
  have hlen := length_of_take hrest
  refine solid_of_measure fun x => ?_
  rw [List.cons_append, hm, List.length_cons]
  congr 2
  rw [hlen]
  refine (markupLength_of_tag hrest ?_ htag x).trans hlen
  rw [List.take_append_drop, hn, hlen]

theorem outset_of_stop {c : Char} {kind : PieceKind} (h : stopKind c = some kind) :
    c ∉ outsetChars ∧ (c = '?' → ([] : Text).head? = some '>') := by
  constructor
  · intro hc
    simp only [outsetChars, List.mem_cons, List.not_mem_nil, or_false] at hc
    obtain rfl | rfl | rfl | rfl | rfl | rfl | rfl := hc <;> cases h
  · rintro rfl
    cases h

/-- Blanks, and the tokens that end by themselves, are what they are whatever comes after them. -/
theorem solid_of_sealing {c : Char} {cs : Text} (h : (measure c cs).1 = .blank ∨
      ∃ kind, (measure c cs).1 = .token kind ∧ kind.seals = true) :
    Solid (c :: cs.take (measure c cs).2) [⟨(measure c cs).1, c :: cs.take (measure c cs).2⟩] ∧
      ∃ d w, c :: cs.take (measure c cs).2 = d :: w ∧ d ∉ outsetChars ∧ (d = '?' → w.head? = some '>') := by
  have hstop : ∀ kind, stopKind c = some kind → (measure c cs).1 = kind → (measure c cs).2 = 0 →
      Solid (c :: cs.take (measure c cs).2) [⟨(measure c cs).1, c :: cs.take (measure c cs).2⟩] ∧
      ∃ d w, c :: cs.take (measure c cs).2 = d :: w ∧ d ∉ outsetChars ∧ (d = '?' → w.head? = some '>') := by
    intro kind hstop hkind hzero
    rw [hzero, hkind]
    exact ⟨solid_stop hstop, c, [], rfl, outset_of_stop hstop⟩
  obtain hk | ⟨kind, hk, hseals⟩ := h
  · obtain ⟨hblank, hzero⟩ := measure_of_blank hk
    exact hstop _ hblank hk hzero
  · obtain ⟨hkind, hzero⟩ | ⟨rfl, hhead, hm⟩ := measure_of_sealing hk hseals
    · exact hstop _ hkind hk hzero
    · obtain ⟨w, rfl⟩ := List.head?_eq_some_iff.mp hhead
      rw [hm]
      exact ⟨solid_attrOpen, '#', _, rfl, by decide, fun h => absurd h (by decide)⟩

theorem exists_block {c : Char} {cs : Text} {n : Nat}
    (h : ("/*" : Text).isPrefixOf (c :: cs.take n) = true) : ∃ cs', c = '/' ∧ cs = '*' :: cs' := by
  cases cs with
  | nil => simp at h
  | cons d cs =>
    cases n with
    | zero => simp at h
    | succ n =>
      simp only [List.take_succ_cons] at h
      obtain ⟨rfl, rfl⟩ : '/' = c ∧ '*' = d := by simpa using h
      exact ⟨cs, rfl, rfl⟩

/-- A piece that ends by itself is that piece whatever comes after it. -/
theorem solid_of_seals {p : Piece} (h : cutCode (p.text ++ t) = p :: cutCode t) (ht : t ≠ [])
    (hp : p.seals = true) :
    Solid p.text [p] ∧ ∃ d w, p.text = d :: w ∧ d ∉ outsetChars ∧ (d = '?' → w.head? = some '>') := by
  obtain ⟨c, cs, hcs⟩ : ∃ c cs, p.text ++ t = c :: cs := by
    cases htext : p.text ++ t with
    | nil => simp [ht] at htext
    | cons c cs => exact ⟨c, cs, rfl⟩
  rw [hcs, cutCode_cons] at h
  obtain ⟨rfl, hrest⟩ := List.cons.inj h
  have hdrop : cs.drop (measure c cs).2 ≠ [] := by
    intro hnil
    rw [hnil] at hrest
    cases t with
    | nil => exact ht rfl
    | cons d t => rw [cutCode, cutCode_cons] at hrest; cases hrest
  clear hcs hrest h
  unfold Piece.seals at hp
  simp only at hp ⊢
  cases hk : (measure c cs).1 with
  | blank => exact hk ▸ solid_of_sealing (.inl hk)
  | comment =>
    simp only [hk] at hp
    obtain ⟨cs, rfl, rfl⟩ := exists_block hp
    refine ⟨?_, '/', _, rfl, by decide, fun h => absurd h (by decide)⟩
    have := solid_comment (.inl hk) hdrop
    rwa [hk] at this
  | doc =>
    simp only [hk] at hp
    obtain ⟨cs, rfl, rfl⟩ := exists_block hp
    refine ⟨?_, '/', _, rfl, by decide, fun h => absurd h (by decide)⟩
    have := solid_comment (.inr hk) hdrop
    rwa [hk] at this
  | markup =>
    obtain ⟨rfl, hhead⟩ := measure_of_markup hk
    cases cs with
    | nil => cases hhead
    | cons d cs =>
      obtain rfl : d = '>' := by simpa using hhead
      have hm : measure '?' ('>' :: cs) = (.markup, markupLength cs + 1) := by
        simp [measure, isAsciiBlank, Nat.add_comm]
      rw [hm] at hp hdrop ⊢
      simp only [List.take_succ_cons, List.drop_succ_cons, Bool.not_eq_eq_eq_not, Bool.not_true]
        at hp hdrop ⊢
      refine ⟨solid_markup hm hdrop fun hs => ?_, '?', _, rfl, by decide, fun _ => rfl⟩
      have : "<?".toList <:+ '?' :: '>' :: cs.take (markupLength cs) :=
        hs.trans ((List.suffix_cons '>' _).trans (List.suffix_cons '?' _))
      rw [List.isSuffixOf_iff_suffix.mpr this] at hp
      cases hp
  | token kind =>
    simp only [hk] at hp
    exact hk ▸ solid_of_sealing (.inr ⟨kind, hk, hp⟩)
  | broken d => simp [hk] at hp

/-! ## 2. Going on another way -/

/-- Whatever comes after a solid piece, what stands before it is cut as it was. -/
theorem cut_of_solid (hcut : cut (P.flatMap Piece.text ++ (p.text ++ t)) = P ++ p :: cutCode t)
    (hP : P ≠ []) (hsolid : Solid p.text [p])
    (hhead : ∃ d w, p.text = d :: w ∧ d ∉ outsetChars ∧ (d = '?' → w.head? = some '>'))
    (htag : "<?".toList <:+: P.flatMap Piece.text ++ (p.text ++ t') →
      "<?".toList <:+: P.flatMap Piece.text ++ (p.text ++ t)) :
    cut (P.flatMap Piece.text ++ (p.text ++ t')) = P ++ p :: cutCode t' := by
  obtain ⟨d, w, htext, hd, hmark⟩ := hhead
  have halike : Alike (p.text ++ t) (p.text ++ t') := by
    rw [htext]
    exact alike_of_head _ _ hd
  have hfollow : ∀ r, P.getLast? = some r → MayFollow r (p.text ++ t) (p.text ++ t') := by
    intro r _
    rw [htext]
    by_cases hmarked : d = '?'
    · refine ⟨fun _ _ _ => Iff.rfl, fun _ _ => ?_⟩
      rw [List.cons_append, lineCommentLength_cons, if_pos]
      refine .inr ⟨hmarked, ?_⟩
      have := hmark hmarked
      cases w with
      | nil => cases this
      | cons e w => simpa using this
    · exact mayFollow_of_head r _ _ hmarked
  have hsplit : p :: cutCode t = cutCode (p.text ++ t) := (hsolid t).symm
  rw [hsplit] at hcut
  rw [cut_append halike rfl hP hcut hfollow htag, hsolid t']
  rfl

/-- After a piece that ends by itself a source may go on another way. -/
theorem cut_of_seals (hcut : cut (P.flatMap Piece.text ++ (p.text ++ t)) = P ++ p :: cutCode t)
    (ht : t ≠ []) (hp : p.seals = true)
    (htag : "<?".toList <:+: P.flatMap Piece.text ++ (p.text ++ t') →
      "<?".toList <:+: P.flatMap Piece.text ++ (p.text ++ t)) :
    cut (P.flatMap Piece.text ++ (p.text ++ t')) = P ++ p :: cutCode t' := by
  by_cases hP : P = []
  · subst hP
    rw [List.flatMap_nil, List.nil_append, List.nil_append] at hcut ⊢
    simp only [List.flatMap_nil, List.nil_append] at htag
    unfold cut at hcut ⊢
    by_cases hc : Text.contains "<?" (p.text ++ t) = true
    · rw [if_pos hc] at hcut
      obtain ⟨hpiece, hrest⟩ := List.cons.inj hcut
      generalize hn : markupLength (p.text ++ t) = n at hpiece hrest
      have hkind : p.kind = .markup := by rw [← hpiece]
      have hlen : p.text.length = n := by
        rw [← hpiece]
        refine length_of_take fun hnil => ht ?_
        have := congrArg (List.flatMap Piece.text) hrest
        rwa [hnil, cutCode_flatten, cutCode_flatten, eq_comm] at this
      have hshort : ¬ "<?".toList <:+ p.text := by
        intro hs
        simp only [Piece.seals, hkind, List.isSuffixOf_iff_suffix.mpr hs, Bool.not_true] at hp
        cases hp
      have hsame := markupLength_of_tag ht (hn.trans hlen.symm) hshort t'
      have htag' := tag_infix_of_markupLength (u := p.text) ht (by omega)
      have hc' : Text.contains "<?" (p.text ++ t') = true :=
        contains_iff.mpr (htag'.trans (List.infix_append' [] _ _))
      rw [if_pos hc', hsame]
      simp only [List.take_left, List.drop_left]
      cases p
      cases hkind
      rfl
    · rw [if_neg hc] at hcut
      rw [if_neg fun hc' => hc (contains_iff.mpr (htag (contains_iff.mp hc')))]
      exact (solid_of_seals hcut ht hp).1 t'
  · have hsuffix := cut_suffix hcut hP
    rw [List.flatMap_cons, cutCode_flatten] at hsuffix
    obtain ⟨hsolid, hhead⟩ := solid_of_seals hsuffix.symm ht hp
    exact cut_of_solid hcut hP hsolid hhead htag

/-! ## 3. The piece before a token -/

theorem lineComment_end (text : Text) :
    text.drop (lineCommentLength text) = [] ∨
      ∃ c cs, text.drop (lineCommentLength text) = c :: cs ∧
        (c = '\n' ∨ c = '?' ∧ cs.head? = some '>') := by
  induction text with
  | nil => exact .inl rfl
  | cons c cs ih =>
    rw [lineCommentLength_cons]
    split
    · rename_i hc
      exact .inr ⟨c, cs, rfl, hc⟩
    · exact ih

theorem comment_of_measure {c : Char} {cs : Text} (h : (measure c cs).1 = .comment ∨
      (measure c cs).1 = .doc) :
    (c = '/' ∧ cs.head? = some '*' ∧ 1 ≤ (measure c cs).2) ∨
      (measure c cs).2 = lineCommentLength cs := by
  revert h
  fun_cases measure c cs <;> intro h <;> grind

/-- The piece that a token stands right after ends by itself, unless it is a token or a short
tag. -/
theorem seals_of_next {kind : TokenKind} (h : cut source = P ++ p :: q :: Q)
    (hq : q.kind = .token kind) (hp : ∀ k, p.kind = .token k → k.seals = true)
    (htag : p.kind = .markup → ¬ "<?".toList <:+ p.text) (hbroken : ∀ d, p.kind ≠ .broken d) :
    p.seals = true := by
  have hcomment : p.kind = .comment ∨ p.kind = .doc → ("/*" : Text).isPrefixOf p.text = true := by
    intro hk
    have hcode := cut_suffix_of_ne_markup h (by obtain hk | hk := hk <;> rw [hk] <;> simp)
    generalize (p :: q :: Q).flatMap Piece.text = text at hcode
    cases text with
    | nil => simp [cutCode] at hcode
    | cons c cs =>
      rw [cutCode_cons] at hcode
      obtain ⟨rfl, hrest⟩ := List.cons.inj hcode
      obtain ⟨rfl, hhead, hone⟩ | hline := comment_of_measure hk
      · cases cs with
        | nil => cases hhead
        | cons d cs =>
          obtain rfl : d = '*' := by simpa using hhead
          obtain ⟨n, hn⟩ : ∃ n, (measure '/' ('*' :: cs)).2 = n + 1 := ⟨_, (Nat.sub_add_cancel hone).symm⟩
          simp [hn]
      · exfalso
        rw [hline] at hrest
        obtain hnil | ⟨d, ds, hd, hend⟩ := lineComment_end cs
        · rw [hnil] at hrest
          simp [cutCode] at hrest
        · rw [hd, cutCode_cons] at hrest
          obtain ⟨rfl, -⟩ := List.cons.inj hrest
          obtain rfl | ⟨rfl, hend⟩ := hend
          · simp [measure, isAsciiBlank] at hq
          · simp [measure, isAsciiBlank, hend] at hq
  unfold Piece.seals
  cases hk : p.kind with
  | blank => rfl
  | comment => exact hcomment (.inl hk)
  | doc => exact hcomment (.inr hk)
  | markup =>
    simp only [Bool.not_eq_eq_eq_not, Bool.not_true]
    refine Bool.eq_false_iff.mpr fun hs => htag hk (List.isSuffixOf_iff_suffix.mp hs)
  | token k => exact hp k hk
  | broken d => exact absurd hk (hbroken d)

/-! ## 4. Where a tag can come from -/

theorem infix_of_append {x y : Text} (h : "<?".toList <:+: x ++ y) :
    "<?".toList <:+: x ∨ "<?".toList <:+: y ∨ x.getLast? = some '<' ∧ y.head? = some '?' := by
  have htag : "<?".toList = ['<', '?'] := rfl
  rw [htag] at h ⊢
  induction x with
  | nil => exact .inr (.inl h)
  | cons c x ih =>
    rw [List.cons_append] at h
    obtain hpre | hin := List.infix_cons_iff.mp h
    · cases x with
      | nil =>
        refine .inr (.inr ?_)
        obtain ⟨z, hz⟩ := hpre
        obtain ⟨rfl, rfl⟩ := List.cons.inj hz
        exact ⟨rfl, rfl⟩
      | cons d x =>
        obtain ⟨z, hz⟩ := hpre
        obtain ⟨rfl, hz₁⟩ := List.cons.inj hz
        obtain ⟨rfl, -⟩ := List.cons.inj hz₁
        exact .inl ⟨[], x, rfl⟩
    · obtain h | h | ⟨h, h'⟩ := ih hin
      · exact .inl (h.trans (List.infix_cons (List.infix_refl x)))
      · exact .inr (.inl h)
      · refine .inr (.inr ⟨?_, h'⟩)
        cases x with
        | nil => cases h
        | cons d x => rwa [List.getLast?_cons_cons]

theorem getLast_of_block {text : Text} {n : Nat} (h : blockCommentLength text = some n) :
    (text.take n).getLast? = some '/' := by
  induction text generalizing n with
  | nil => simp [blockCommentLength] at h
  | cons c cs ih =>
    rw [blockCommentLength_cons] at h
    split at h
    · rename_i hc
      obtain rfl := Option.some.inj h
      cases cs with
      | nil => simp at hc
      | cons d cs =>
        obtain rfl : d = '/' := by simpa using hc.2
        rfl
    · obtain ⟨m, hm, rfl⟩ := Option.map_eq_some_iff.mp h
      have := ih hm
      rw [List.take_succ_cons, List.getLast?_cons, this]
      rfl

end Crosslink.Source
