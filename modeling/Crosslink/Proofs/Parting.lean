import Mathlib.Data.List.Chain
import Crosslink.Proofs.Seams

/-!
# Taking pieces out and putting pieces in

What is left of a source when some pieces are taken out of it is cut into the pieces that are left,
and a text that is cut alike everywhere is cut so when it is put into a source. Both need a seam
that holds: the piece before it ends by itself, or the pieces on its other side look alike.

* §1 Where a tag can come from.
* §2 `cut_without_of_seals` and `cut_without_of_break`, pieces taken out.
* §3 `cut_with`, pieces put in.
* §4 `Spaced`, the sources whose seams hold.
-/

namespace Crosslink.Source

variable {text source w : Text} {p q r : Piece} {P Q M R : List Piece}

/-! ## 1. Tags -/

theorem flatMap_cutCode (h : R = cutCode text) : R.flatMap Piece.text = text := by
  rw [h, cutCode_flatten]

theorem cut_of_untagged (h : ¬ "<?".toList <:+: source) : cut source = cutCode source :=
  if_neg fun hc => h (contains_iff.mp hc)

theorem source_eq (h : cut source = P) : source = P.flatMap Piece.text := by
  rw [← h, cut_flatten]

/-- Markup that something comes after ends with a tag. -/
theorem tag_of_markup {c : Char} {cs : Text} (h : (measure c cs).1 = .markup)
    (hrest : cs.drop (measure c cs).2 ≠ []) :
    "<?".toList <:+: c :: cs.take (measure c cs).2 := by
  obtain ⟨rfl, hhead⟩ := measure_of_markup h
  cases cs with
  | nil => cases hhead
  | cons d cs =>
    obtain rfl : d = '>' := by simpa using hhead
    have hm : measure '?' ('>' :: cs) = (.markup, markupLength cs + 1) := by
      simp [measure, isAsciiBlank, Nat.add_comm]
    rw [hm] at hrest ⊢
    simp only [List.take_succ_cons, List.drop_succ_cons] at hrest ⊢
    have hlen := length_of_take hrest
    have htag := tag_infix_of_markupLength (u := cs.take (markupLength cs)) hrest
      (by rw [List.take_append_drop, hlen])
    exact htag.trans ((List.suffix_cons '>' _).trans (List.suffix_cons '?' _)).isInfix

theorem markup_of_break {cs : Text} (h : (measure '?' cs).1.isBreak = true) :
    (measure '?' cs).1 = .markup := by
  by_cases hhead : cs.head? = some '>'
  · simp [measure, isAsciiBlank, hhead]
  · by_cases harrow : cs.take 2 = ['-', '>']
    · have hm : measure '?' cs = (.token .arrow, 2) := by
        simp [measure, isAsciiBlank, isNameStart, hhead, harrow]
      rw [hm] at h
      cases h
    · have hm : measure '?' cs = (.token .other, 0) := by
        simp [measure, isAsciiBlank, isNameStart, hhead, harrow]
      rw [hm] at h
      cases h

/-- A piece that ends by itself does not end with the beginning of a tag, unless it holds one. -/
theorem tag_of_seals_last (h : p :: R = cutCode text) (hR : R ≠ []) (hp : p.seals = true)
    (hlast : p.text.getLast? = some '<') : "<?".toList <:+: p.text := by
  cases text with
  | nil => simp [cutCode] at h
  | cons c cs =>
    rw [cutCode_cons] at h
    obtain ⟨rfl, hrest⟩ := List.cons.inj h
    have hdrop : cs.drop (measure c cs).2 ≠ [] := by
      intro hnil
      rw [hnil, cutCode] at hrest
      exact hR hrest
    have hstop : ∀ {kind : PieceKind}, stopKind c = some kind → (measure c cs).2 = 0 → False := by
      intro kind hstop hzero
      rw [hzero] at hlast
      obtain rfl : c = '<' := by simpa using hlast
      cases hstop
    unfold Piece.seals at hp
    simp only at hp hlast ⊢
    cases hk : (measure c cs).1 with
    | blank => exact (hstop (measure_of_blank hk).1 (measure_of_blank hk).2).elim
    | comment | doc =>
      exfalso
      simp only [hk] at hp
      obtain ⟨cs, rfl, rfl⟩ := exists_block hp
      cases hn : blockCommentLength cs with
      | none => simp [measure, isAsciiBlank, hn] at hk
      | some n =>
        rw [measure_block cs hn, Nat.add_comm 1 n, List.take_succ_cons, List.getLast?_cons,
          List.getLast?_cons, getLast_of_block hn] at hlast
        simp at hlast
    | markup => exact tag_of_markup hk hdrop
    | token kind =>
      simp only [hk] at hp
      obtain ⟨hs, hzero⟩ | ⟨rfl, hhead, hm⟩ := measure_of_sealing hk hp
      · exact (hstop hs hzero).elim
      · cases cs with
        | nil => cases hhead
        | cons d cs =>
          obtain rfl : d = '[' := by simpa using hhead
          rw [hm] at hlast
          simp at hlast
    | broken d => simp [hk] at hp

/-- A piece that begins with a question mark and breaks off what stands before it is markup, and it
holds a tag when anything comes after it. -/
theorem tag_of_break_head (h : q :: Q = cutCode text) (hq : q.kind.isBreak = true)
    (hQ : q.kind = .markup → Q ≠ []) (hhead : text.head? = some '?') : "<?".toList <:+: q.text := by
  cases text with
  | nil => cases hhead
  | cons c cs =>
    obtain rfl : c = '?' := by simpa using hhead
    rw [cutCode_cons] at h
    obtain ⟨rfl, hrest⟩ := List.cons.inj h
    have hmark := markup_of_break hq
    refine tag_of_markup hmark fun hnil => ?_
    rw [hnil, cutCode] at hrest
    exact hQ hmark hrest

/-- The first piece of a source that holds a tag ends with one, when there is another piece. -/
theorem tag_of_cut (h : cut source = P ++ R) (hP : P ≠ []) (hR : R ≠ [])
    (htag : "<?".toList <:+: source) : "<?".toList <:+: P.flatMap Piece.text := by
  cases P with
  | nil => exact absurd rfl hP
  | cons p P =>
    unfold cut at h
    rw [if_pos (contains_iff.mpr htag)] at h
    obtain ⟨rfl, hrest⟩ := List.cons.inj h
    have hdrop : source.drop (markupLength source) ≠ [] := by
      intro hnil
      rw [hnil, cutCode] at hrest
      exact hR (List.append_eq_nil_iff.mp hrest.symm).2
    have hlen := length_of_take hdrop
    have htag' := tag_infix_of_markupLength (u := source.take (markupLength source)) hdrop
      (by rw [List.take_append_drop, hlen])
    rw [List.flatMap_cons]
    exact htag'.trans (List.prefix_append _ _).isInfix

/-! ## 2. Taking pieces out -/

theorem text_ne_nil_of_cut (h : R = cutCode text) (hR : R ≠ []) : R.flatMap Piece.text ≠ [] := by
  rw [flatMap_cutCode h]
  rintro rfl
  exact hR (by rw [h, cutCode])

theorem text_ne_nil_of_cons (h : p :: R = cutCode text) : p.text ≠ [] :=
  text_ne_nil_of_mem_cutCode (by rw [← h]; simp)

theorem getLast?_append_of_ne_nil (x : Text) {y : Text} (hy : y ≠ []) :
    (x ++ y).getLast? = y.getLast? := by
  rw [List.getLast?_append]
  obtain ⟨z, hz⟩ := Option.isSome_iff_exists.mp (List.getLast?_isSome.mpr hy)
  rw [hz]
  rfl

/-- Pieces are taken out after a piece that ends by itself. -/
theorem cut_without_of_seals (h : cut source = P ++ p :: (M ++ Q)) (hp : p.seals = true)
    (hM : M ++ Q ≠ []) :
    cut (P.flatMap Piece.text ++ (p.text ++ Q.flatMap Piece.text)) = P ++ p :: Q := by
  have hsource : source = P.flatMap Piece.text ++ (p.text ++ (M ++ Q).flatMap Piece.text) := by
    conv => lhs; rw [source_eq h]
    simp
  have hrest : M ++ Q = cutCode ((M ++ Q).flatMap Piece.text) :=
    cut_suffix (P := P ++ [p]) (by simpa using h) (by simp)
  have hQ : Q = cutCode (Q.flatMap Piece.text) :=
    cut_suffix (P := P ++ p :: M) (by simpa using h) (by simp)
  have htag : "<?".toList <:+: P.flatMap Piece.text ++ (p.text ++ Q.flatMap Piece.text) →
      "<?".toList <:+: P.flatMap Piece.text ++ (p.text ++ (M ++ Q).flatMap Piece.text) := by
    intro hin
    by_cases htagged : "<?".toList <:+: source
    · rwa [hsource] at htagged
    · exfalso
      have hcode : p :: (M ++ Q) = cutCode ((p :: (M ++ Q)).flatMap Piece.text) :=
        cutCode_suffix (P := P) ((cut_of_untagged htagged).symm.trans h)
      have hno : ∀ x : Text, x <:+: source → ¬ "<?".toList <:+: x :=
        fun x hx hin => htagged (hin.trans hx)
      rw [← List.append_assoc] at hin
      obtain hin | hin | ⟨hlast, -⟩ := infix_of_append hin
      · refine hno _ ⟨[], (M ++ Q).flatMap Piece.text, ?_⟩ hin
        rw [hsource]
        simp
      · refine hno _ ⟨P.flatMap Piece.text ++ (p.text ++ M.flatMap Piece.text), [], ?_⟩ hin
        rw [hsource]
        simp
      · rw [getLast?_append_of_ne_nil _ (text_ne_nil_of_cons hcode)] at hlast
        refine hno _ ⟨P.flatMap Piece.text, (M ++ Q).flatMap Piece.text, ?_⟩
          (tag_of_seals_last hcode hM hp hlast)
        rw [hsource]
        simp
  have hcut := cut_of_seals (t := (M ++ Q).flatMap Piece.text)
    (by rw [← hsource, ← hrest]; exact h) (text_ne_nil_of_cut hrest hM) hp htag
  rwa [← hQ] at hcut

theorem alike_of_break {c d : Char} (hc : c ∈ breakChars) (hd : d ∈ breakChars) (x y : Text) :
    Alike (c :: x) (d :: y) := by
  have hkinds : ∀ e ∈ breakChars, e ∉ outsetChars ∧ isNameChar e = false ∧
      (e.isAlphanum || e = '_') = false ∧ isNameStart e = false ∧
      e ∉ ['>', '[', ':', '.', '='] := by
    intro e he
    simp only [breakChars, List.mem_cons, List.not_mem_nil, or_false] at he
    rcases he with rfl | rfl | rfl | rfl | rfl | rfl | rfl | rfl | rfl | rfl | rfl | rfl <;>
      exact ⟨by decide, by decide, by decide, by decide, by decide⟩
  obtain ⟨hc₁, hc₂, hc₃, hc₄, hc₅⟩ := hkinds c hc
  obtain ⟨hd₁, hd₂, hd₃, hd₄, hd₅⟩ := hkinds d hd
  refine alike_of_heads x y hc₁ hd₁ (by rw [hc₂, hd₂]) (by rw [hc₃, hd₃]) (by rw [hc₄, hd₄]) ?_
  intro e he
  exact ⟨fun h => absurd (h ▸ he) hc₅, fun h => absurd (h ▸ he) hd₅⟩

/-- Pieces are taken out after a token when it is no slash and neither what is taken out nor what
comes after it goes on with a token. -/
theorem cut_without_of_break {kind : TokenKind} (h : cut source = P ++ p :: (r :: M ++ q :: Q))
    (hp : p.kind = .token kind) (hslash : p.text ≠ ['/']) (hr : r.kind.isBreak = true)
    (hq : q.kind.isBreak = true) (hQ : q.kind = .markup → Q ≠ []) :
    cut (P.flatMap Piece.text ++ (p.text ++ (q :: Q).flatMap Piece.text)) = P ++ p :: q :: Q := by
  have hsource : source = (P ++ [p]).flatMap Piece.text ++
      (r :: M ++ q :: Q).flatMap Piece.text := by
    conv => lhs; rw [source_eq h]
    simp
  have hcut : cut source = (P ++ [p]) ++ (r :: M ++ q :: Q) := by simpa using h
  have hrest : r :: M ++ q :: Q = cutCode ((r :: M ++ q :: Q).flatMap Piece.text) :=
    cut_suffix hcut (by simp)
  have hQcode : q :: Q = cutCode ((q :: Q).flatMap Piece.text) :=
    cut_suffix (P := P ++ p :: r :: M) (by simpa using h) (by simp)
  obtain ⟨c, x, hcx, hc⟩ := head_of_isBreak (R := M ++ q :: Q) hrest hr
  obtain ⟨d, y, hdy, hd⟩ := head_of_isBreak hQcode hq
  have hpcode : p :: (r :: M ++ q :: Q) = cutCode ((p :: (r :: M ++ q :: Q)).flatMap Piece.text) :=
    cut_suffix_of_ne_markup h (by rw [hp]; simp)
  have htag : "<?".toList <:+: (P ++ [p]).flatMap Piece.text ++ (q :: Q).flatMap Piece.text →
      "<?".toList <:+: (P ++ [p]).flatMap Piece.text ++ (r :: M ++ q :: Q).flatMap Piece.text := by
    intro hin
    rw [← hsource]
    obtain hin | hin | ⟨-, hhead⟩ := infix_of_append hin
    · rw [hsource]
      exact hin.trans (List.infix_append' [] _ _)
    · refine hin.trans ⟨(P ++ [p]).flatMap Piece.text ++ (r :: M).flatMap Piece.text, [], ?_⟩
      rw [hsource]
      simp
    · refine (tag_of_break_head hQcode hq hQ hhead).trans
        ⟨(P ++ p :: r :: M).flatMap Piece.text, Q.flatMap Piece.text, ?_⟩
      rw [hsource]
      simp
  have hfollow : ∀ s, (P ++ [p]).getLast? = some s →
      MayFollow s ((r :: M ++ q :: Q).flatMap Piece.text) ((q :: Q).flatMap Piece.text) := by
    intro s hs
    obtain rfl : p = s := by simpa using hs
    exact ⟨fun h => absurd h hslash, fun h => by rw [hp] at h; cases h⟩
  have halike : Alike ((r :: M ++ q :: Q).flatMap Piece.text) ((q :: Q).flatMap Piece.text) := by
    rw [hdy]
    simp only [List.cons_append] at hcx ⊢
    rw [hcx]
    exact alike_of_break hc hd x y
  have hnew := cut_append halike rfl (by simp) (by rw [← hsource, ← hrest]; exact hcut) hfollow htag
  rw [← hQcode] at hnew
  simpa using hnew

/-! ## 3. Putting pieces in -/

/-- No tag comes about where a text is put in after a character that begins none. -/
theorem tag_of_between {x y : Text} (hx : x.getLast? ≠ some '<') (hw : w.getLast? ≠ some '<')
    (h : "<?".toList <:+: x ++ (w ++ y)) : "<?".toList <:+: w ∨ "<?".toList <:+: x ++ y := by
  obtain h | h | ⟨hcross, -⟩ := infix_of_append h
  · exact .inr (h.trans (List.infix_append' [] _ _))
  · obtain h | h | ⟨hcross, -⟩ := infix_of_append h
    · exact .inl h
    · exact .inr (h.trans (List.suffix_append _ _).isInfix)
    · exact absurd hcross hw
  · exact absurd hcross hx

/-- A source that does not begin with markup has no tag. -/
theorem untagged_of_head (h : cut source = p :: Q) (hp : p.kind ≠ .markup) : ¬ "<?".toList <:+: source := by
  intro htag
  rw [cut, if_pos (contains_iff.mpr htag)] at h
  obtain ⟨rfl, -⟩ := List.cons.inj h
  exact hp rfl

/-- Pieces are put in after a piece that is solid. -/
theorem cut_with (h : cut source = P ++ p :: Q) (hP : P ≠ [] ∨ p.kind ≠ .markup) (hp : Solid p.text [p])
    (hhead : ∃ d v, p.text = d :: v ∧ d ∉ outsetChars ∧ (d = '?' → v.head? = some '>'))
    (hlast : p.text.getLast? ≠ some '<') (hw : Solid w M) (hwlast : w.getLast? ≠ some '<')
    (htag : "<?".toList <:+: w → "<?".toList <:+: source) :
    cut (P.flatMap Piece.text ++ (p.text ++ (w ++ Q.flatMap Piece.text))) =
      P ++ p :: (M ++ Q) := by
  have hsource : source = P.flatMap Piece.text ++ (p.text ++ Q.flatMap Piece.text) := by
    conv => lhs; rw [source_eq h]
    simp
  have hne : p.text ≠ [] := by
    obtain ⟨d, v, hd, -⟩ := hhead
    rw [hd]
    simp
  have htag' : "<?".toList <:+: P.flatMap Piece.text ++ (p.text ++ (w ++ Q.flatMap Piece.text)) →
      "<?".toList <:+: source := by
    intro hin
    rw [← List.append_assoc] at hin
    obtain hin | hin := tag_of_between (by rwa [getLast?_append_of_ne_nil _ hne]) hwlast hin
    · exact htag hin
    · rwa [hsource, ← List.append_assoc]
  by_cases hnil : P = []
  · subst hnil
    have huntagged := untagged_of_head h (hP.resolve_left (not_not_intro rfl))
    have hQ : Q = cutCode (Q.flatMap Piece.text) :=
      cutCode_suffix (P := [p]) (by rw [← cut_of_untagged huntagged]; exact h)
    rw [cut_of_untagged (mt htag' huntagged), List.flatMap_nil, List.nil_append, hp, hw, ← hQ]
    rfl
  · have hQ : Q = cutCode (Q.flatMap Piece.text) :=
      cut_suffix (P := P ++ [p]) (by simpa using h) (by simp)
    rw [hsource] at htag'
    have hcut := cut_of_solid
      (by rw [← hsource, ← hQ]; exact h) hnil hp hhead htag'
    rw [hw, ← hQ] at hcut
    exact hcut

/-! ## 4. Seams that hold -/

/-- True for inline markup that ends with a short tag, which a name after it would make longer. -/
def Piece.ShortTag (p : Piece) : Prop := p.kind = .markup ∧ "<?".toList <:+ p.text

/-- The word that would begin a comment with what comes after it. -/
def slash : Word := (.other, ['/'])

/-- No token stands right after a short tag, and no comma after a slash. -/
structure Spaced (ps : List Piece) : Prop where
  tags : ps.IsChain fun p q => p.ShortTag → ∀ kind, q.kind ≠ .token kind
  slashes : (ps.filterMap wordOf).IsChain fun v w => v = slash → w.1 ≠ .comma

/-- The last of some pieces is no short tag, and the last of their words is no slash. -/
structure Holds (ps : List Piece) : Prop where
  tag : ∀ p ∈ ps.getLast?, ¬ p.ShortTag
  slash : ∀ w ∈ (ps.filterMap wordOf).getLast?, w ≠ slash

instance (p : Piece) : Decidable p.ShortTag :=
  inferInstanceAs (Decidable (p.kind = .markup ∧ "<?".toList <:+ p.text))

/-- True for the tokens of a source. -/
def PieceKind.isToken : PieceKind → Bool
  | .token _ => true
  | _ => false

theorem PieceKind.isToken_eq_false {k : PieceKind} :
    k.isToken = false ↔ ∀ kind, k ≠ .token kind := by
  cases k <;> simp [isToken]

instance (p q : Piece) : Decidable (p.ShortTag → ∀ kind, q.kind ≠ .token kind) :=
  decidable_of_iff (p.ShortTag → q.kind.isToken = false) (by rw [PieceKind.isToken_eq_false])

instance (ps : List Piece) : Decidable (Spaced ps) :=
  decidable_of_iff ((ps.IsChain fun p q => p.ShortTag → ∀ kind, q.kind ≠ .token kind) ∧
      (ps.filterMap wordOf).IsChain fun v w => v = slash → w.1 ≠ .comma)
    ⟨fun h => ⟨h.1, h.2⟩, fun h => ⟨h.1, h.2⟩⟩

theorem Spaced.without (h : Spaced (P ++ (M ++ Q))) (hP : Holds P) : Spaced (P ++ Q) := by
  obtain ⟨htags, hslashes⟩ := h
  obtain ⟨hp, hmq, -⟩ := List.isChain_append.mp htags
  obtain ⟨-, hq, -⟩ := List.isChain_append.mp hmq
  rw [List.filterMap_append] at hslashes
  obtain ⟨hp', hmq', -⟩ := List.isChain_append.mp hslashes
  rw [List.filterMap_append] at hmq'
  obtain ⟨-, hq', -⟩ := List.isChain_append.mp hmq'
  refine ⟨List.isChain_append.mpr ⟨hp, hq, fun p hp _ _ ht => absurd ht (hP.tag p hp)⟩, ?_⟩
  rw [List.filterMap_append]
  exact List.isChain_append.mpr ⟨hp', hq', fun v hv _ _ hs => absurd hs (hP.slash v hv)⟩

theorem Spaced.with (h : Spaced (P ++ Q)) (hM : Spaced M) (hP : Holds P) (hM' : Holds M) :
    Spaced (P ++ (M ++ Q)) := by
  obtain ⟨htags, hslashes⟩ := h
  obtain ⟨hp, hq, -⟩ := List.isChain_append.mp htags
  rw [List.filterMap_append] at hslashes
  obtain ⟨hp', hq', -⟩ := List.isChain_append.mp hslashes
  refine ⟨?_, ?_⟩
  · refine List.isChain_append.mpr ⟨hp, List.isChain_append.mpr ⟨hM.tags, hq, ?_⟩, ?_⟩
    · exact fun p hp _ _ ht => absurd ht (hM'.tag p hp)
    · exact fun p hp _ _ ht => absurd ht (hP.tag p hp)
  · rw [List.filterMap_append, List.filterMap_append]
    refine List.isChain_append.mpr ⟨hp', List.isChain_append.mpr ⟨hM.slashes, hq', ?_⟩, ?_⟩
    · exact fun p hp _ _ ht => absurd ht (hM'.slash p hp)
    · exact fun p hp _ _ ht => absurd ht (hP.slash p hp)

theorem Holds.of_last {kind : TokenKind} (hp : p.kind = .token kind) (hkind : kind ≠ .other) :
    Holds (P ++ [p]) := by
  have hword : wordOf p = some (kind, p.text) := by simp [wordOf, hp]
  refine ⟨fun q hq => ?_, fun w hw => ?_⟩
  · obtain rfl : p = q := by simpa using hq
    rintro ⟨hmark, -⟩
    rw [hp] at hmark
    cases hmark
  · rw [List.filterMap_append, List.filterMap_cons, hword] at hw
    obtain rfl : (kind, p.text) = w := by simpa using hw
    exact fun he => hkind (Prod.mk.inj he).1

theorem other_of_slash {kind : TokenKind} (h : p :: R = cutCode text) (hp : p.kind = .token kind)
    (htext : p.text = ['/']) : kind = .other := by
  cases text with
  | nil => simp [cutCode] at h
  | cons c cs =>
    rw [cutCode_cons] at h
    obtain ⟨rfl, -⟩ := List.cons.inj h
    obtain ⟨rfl, -⟩ := List.cons.inj htext
    simp only at hp
    revert hp
    generalize hc : '/' = c
    fun_cases measure c cs <;> intro hp <;>
      first
      | exact (PieceKind.token.inj hp).symm
      | (subst hc; simp_all [isAsciiBlank, isNameStart]; done)
      | (subst hc; split at hp <;> cases hp)

end Crosslink.Source
