import Crosslink.Proofs.Shedding

/-!
# Groups taken out whole

A group of attributes that is taken out takes its line along, or the blanks after it or before it. Where it
stands right after a brace, a semicolon or a closing bracket, but for blanks and comments, what is left of the
source is cut as before, and no word `function` is read otherwise.

* §1 `Edit.takeOut_parts`, the blanks that go with a construct.
* §2 Pieces of blanks, and the pieces up to an offset.
* §3 `EndsMember` and `AttributeGroup.Behind`, where a group stands, and `silent_of_last`.
* §4 `Detachment`, the pieces of a group with the blanks that go with it.
* §5 `Trim.remainder`, the group that some attributes are taken out of.
-/

namespace Crosslink

open Text

/-! ## §1 The blanks that go with a construct -/

namespace Edit

theorem takeOut_eq_delete (source : Text) (s : Span) : takeOut source s = .delete (takeOut source s).span := by
  unfold takeOut
  split
  · rfl
  · dsimp only
    split <;> rfl

theorem isAsciiBlank_of_isIndent {c : Char} (h : isIndent c = true) : isAsciiBlank c = true := by
  simp only [isIndent, Bool.or_eq_true, decide_eq_true_eq] at h
  obtain rfl | rfl := h <;> decide

/-- A line that is blank from a place on ends in blanks. -/
theorem exists_next {x y : Text} (h : Line.blankAfter (x ++ y) (width x) = true) : ∃ w v, y = w ++ v ∧
    (∀ c ∈ w, isAsciiBlank c = true) ∧ Line.next (x ++ y) (width x) = width (x ++ w) := by
  rw [Line.blankAfter_eq] at h
  have hblank : ∀ w : Text, '\n' ∉ w → (∃ v, y = w ++ v ∧ ∀ c ∈ v.head?, c = '\n') →
      ∀ c ∈ w, isAsciiBlank c = true := by
    rintro w hw ⟨v, rfl, hv⟩ c hc
    rw [Line.takeWhile_append_of_line hw, List.all_append, Bool.and_eq_true] at h
    have hchar := List.all_eq_true.mp h.1 c hc
    simp only [Bool.or_eq_true, decide_eq_true_eq] at hchar
    obtain hindent | rfl := hchar
    · exact isAsciiBlank_of_isIndent hindent
    · decide
  by_cases hy : '\n' ∈ y
  · obtain ⟨w, v, rfl, hw⟩ := List.eq_append_cons_of_mem hy
    refine ⟨w ++ ['\n'], v, by simp, fun c hc => ?_, ?_⟩
    · obtain hc | hc := List.mem_append.mp hc
      · exact hblank w hw ⟨_, rfl, by simp⟩ c hc
      · obtain rfl := List.mem_singleton.mp hc
        decide
    · rw [Line.next_eq_of_newline hw]
      simp only [width_append, width_cons, width_nil]
      rw [show ('\n' : Char).utf8Size = 1 from rfl]
      omega
  · refine ⟨y, [], (List.append_nil y).symm, hblank y hy ⟨[], (List.append_nil y).symm, by simp⟩, ?_⟩
    have hrest : y.takeWhile (· ≠ '\n') = y := by simpa using Line.takeWhile_append_of_line hy []
    rw [Line.next, Line.stop_eq, hrest, width_append]
    simp

/-- What goes with a construct are blanks on its line before it, and blanks after it. -/
theorem takeOut_parts {source : Text} {s : Span} (h : s.Framed source) : ∃ u b z w v : Text,
    source = u ++ (b ++ (z ++ (w ++ v))) ∧ s.start = width (u ++ b) ∧ s.stop = width (u ++ b ++ z) ∧
      (∀ c ∈ b, isIndent c = true) ∧ (∀ c ∈ w, isAsciiBlank c = true) ∧
      takeOut source s = .delete ⟨width u, width (u ++ b ++ z ++ w)⟩ := by
  have hfits := fits_of_framed h
  obtain ⟨x, z, y, rfl, hstart, hstop⟩ : ∃ x z y, source = x ++ (z ++ y) ∧ s.start = width x ∧
      s.stop = width (x ++ z) := by
    obtain ⟨x, y, hx, hstart⟩ := Text.isBoundary_iff.mp hfits.start
    obtain ⟨x', y', hx', hstop⟩ := Text.isBoundary_iff.mp hfits.stop
    have hle := hfits.le
    obtain ⟨z, rfl, rfl⟩ := exists_between (hx.symm.trans hx') (by omega)
    exact ⟨x, z, y', hx, hstart, hstop⟩
  have hassoc : x ++ (z ++ y) = (x ++ z) ++ y := (List.append_assoc _ _ _).symm
  rw [takeOut_eq_delete]
  obtain ⟨hbefore, hafter, hspan⟩ | ⟨-, -, hspan⟩ | ⟨-, hspan⟩ := takeOut_cases (x ++ (z ++ y)) s <;> rw [hspan]
  · rw [hstart] at hbefore ⊢
    rw [hstop] at hafter ⊢
    obtain ⟨u, hu, hline, -⟩ := Line.exists_head x (z ++ y)
    rw [Line.blankBefore] at hbefore
    rw [hline]
    generalize Line.head (x ++ (z ++ y)) (width x) = b at hu hbefore
    subst hu
    rw [hassoc] at hafter ⊢
    obtain ⟨w, v, rfl, hw, hnext⟩ := exists_next hafter
    rw [hnext]
    exact ⟨u, b, z, w, v, by simp, rfl, rfl, List.all_eq_true.mp hbefore, hw, rfl⟩
  · rw [hstart, hstop, hassoc, Line.skipBlanks_eq]
    refine ⟨x, [], z, y.takeWhile isIndent, y.dropWhile isIndent, by simp, by simp, by simp, by simp,
      fun c hc => isAsciiBlank_of_isIndent (List.all_eq_true.mp List.all_takeWhile c hc),
      by simp [Nat.add_assoc]⟩
  · obtain ⟨b, hb, hblank⟩ := exists_trimEnd isIndent x
    rw [hstart, hstop, before_width]
    generalize trimEnd isIndent x = u at hb
    subst hb
    exact ⟨u, b, z, [], y, by simp, rfl, rfl, List.all_eq_true.mp hblank, by simp, by simp⟩

end Edit

namespace Source

open TokenSequence

variable {source out : Text} {l l' : TokenSequence} {P M Q A B C R : List Piece} {p q : Piece} {i o c : Nat}
  {g : AttributeGroup}

/-! ## §2 Blanks and offsets -/

/-- Pieces that have text are told by where they end. -/
theorem prefix_of_extent (hC : ∀ p ∈ C, p.text ≠ []) (h : A <+: C) (h' : B <+: C)
    (hle : Reading.extent A ≤ Reading.extent B) : A <+: B := by
  obtain hlen | hlen := Nat.le_total A.length B.length
  · exact List.prefix_of_prefix_length_le h h' hlen
  · obtain ⟨z, rfl⟩ := List.prefix_of_prefix_length_le h' h hlen
    cases z with
    | nil => simp
    | cons p z =>
      have hp : p.text ≠ [] := hC p (h.subset (by simp))
      have hpos : 0 < Text.width p.text := Nat.pos_of_ne_zero (mt Text.width_eq_zero.mp hp)
      rw [extent_append, extent_cons] at hle
      omega

theorem eq_of_extent (hC : ∀ p ∈ C, p.text ≠ []) (h : A <+: C) (h' : B <+: C)
    (heq : Reading.extent A = Reading.extent B) : A = B :=
  (prefix_of_extent hC h h' heq.le).eq_of_length_le (prefix_of_extent hC h' h heq.ge).length_le

theorem text_ne_nil_of_mem_cut (h : p ∈ cut source) : p.text ≠ [] := by
  obtain ⟨A, R, hcut⟩ := List.append_of_mem h
  exact text_ne_nil_of_piece hcut

theorem flatMap_blanks (w : Text) : (blanks w).flatMap Piece.text = w := by
  rw [blanks, List.flatMap_map]
  exact List.flatMap_singleton' w

/-- Blanks that stand after other pieces are pieces. -/
theorem exists_blanks_after {w v : Text} (h : cut source = P ++ Q) (hP : P ≠ [])
    (hQ : Q.flatMap Piece.text = w ++ v) (hw : ∀ c ∈ w, isAsciiBlank c = true) : ∃ R, Q = blanks w ++ R := by
  rw [cut_suffix h hP, hQ]
  clear hQ
  induction w with
  | nil => exact ⟨_, rfl⟩
  | cons c w ih =>
    obtain ⟨R, hR⟩ := ih fun d hd => hw d (List.mem_cons_of_mem _ hd)
    have hc : measure c (w ++ v) = (.blank, 0) := by rw [measure, if_pos (hw c List.mem_cons_self)]
    rw [List.cons_append, cutCode_cons, hc]
    dsimp only
    rw [List.take_zero, List.drop_zero, hR]
    exact ⟨R, rfl⟩

/-- The piece that a piece stands right after ends by itself, unless it is a token or a short tag, or a newline
or markup ends a comment there. -/
theorem seals_of_follow (h : cut source = P ++ p :: q :: Q) (hq : q.kind ≠ .markup ∧ q ≠ ⟨.blank, ['\n']⟩)
    (hp : ∀ k, p.kind = .token k → k.seals = true) (htag : p.kind = .markup → ¬ "<?".toList <:+ p.text)
    (hbroken : ∀ d, p.kind ≠ .broken d) : p.seals = true := by
  have hcomment : p.kind = .comment ∨ p.kind = .doc → ("/*" : Text).isPrefixOf p.text = true := by
    intro hk
    have hcode := cut_suffix_of_ne_markup h (by obtain hk | hk := hk <;> rw [hk] <;> simp)
    generalize (p :: q :: Q).flatMap Piece.text = text at hcode
    cases text with
    | nil => simp [cutCode] at hcode
    | cons c cs =>
      rw [cutCode_cons] at hcode
      obtain ⟨rfl, hrest⟩ := List.cons.inj hcode
      obtain ⟨rfl, hhead, hone⟩ | hline := comment_of_measure hk
      · cases cs with
        | nil => cases hhead
        | cons d cs =>
          obtain rfl : d = '*' := by simpa using hhead
          obtain ⟨n, hn⟩ : ∃ n, (measure '/' ('*' :: cs)).2 = n + 1 := ⟨_, (Nat.sub_add_cancel hone).symm⟩
          simp [hn]
      · exfalso
        rw [hline] at hrest
        obtain hnil | ⟨d, ds, hd, hend⟩ := lineComment_end cs
        · rw [hnil] at hrest
          simp [cutCode] at hrest
        · rw [hd, cutCode_cons] at hrest
          obtain ⟨rfl, -⟩ := List.cons.inj hrest
          obtain rfl | ⟨rfl, hend⟩ := hend
          · exact hq.2 (by simp [measure, isAsciiBlank])
          · exact hq.1 (by simp [measure, isAsciiBlank, hend])
  unfold Piece.seals
  cases hk : p.kind with
  | blank => rfl
  | comment => exact hcomment (.inl hk)
  | doc => exact hcomment (.inr hk)
  | markup =>
    simp only [Bool.not_eq_eq_eq_not, Bool.not_true]
    refine Bool.eq_false_iff.mpr fun hs => htag hk (List.isSuffixOf_iff_suffix.mp hs)
  | token k => exact hp k hk
  | broken d => exact absurd hk (hbroken d)

/-! ## §3 Where a group stands -/

/-- The tokens that end a member or another group, or open a class body. -/
def endKinds : List TokenKind := [.openBrace, .closeBrace, .semicolon, .closeBracket]

/-- The last of some pieces that is no blank and no comment is a brace, a semicolon or a closing bracket. -/
def EndsMember (X : List Piece) : Prop :=
  ∃ A p B, X = A ++ p :: B ∧ (∃ kind ∈ endKinds, p.kind = .token kind) ∧
    ∀ q ∈ B, q.kind = .blank ∨ q.kind = .comment ∨ q.kind = .doc

theorem endsMember_of_token {kind : TokenKind} (hp : p.kind = .token kind) (hkind : kind ∈ endKinds) :
    EndsMember (A ++ [p]) := ⟨A, p, [], rfl, ⟨kind, hkind, hp⟩, by simp⟩

theorem EndsMember.concat (h : EndsMember A) (hp : p.kind = .blank ∨ p.kind = .comment ∨ p.kind = .doc) :
    EndsMember (A ++ [p]) := by
  obtain ⟨A, q, B, rfl, hq, hB⟩ := h
  refine ⟨A, q, B ++ [p], by simp, hq, fun r hr => ?_⟩
  obtain hr | hr := List.mem_append.mp hr
  · exact hB r hr
  · obtain rfl := List.mem_singleton.mp hr
    exact hp

/-- A group stands right behind such a token, but for blanks and comments. -/
def AttributeGroup.Behind (source : Text) (g : AttributeGroup) : Prop :=
  ∃ A R, cut source = A ++ R ∧ Reading.extent A = g.span.start ∧ EndsMember A

/-- True if a group begins at one of the pieces from an offset on, and stands behind such a token. It is given
whether what comes before them ends so. -/
def AttributeGroup.behindFrom (g : AttributeGroup) : Bool → Nat → List Piece → Bool
  | _, _, [] => false
  | behind, n, p :: ps =>
    if n = g.span.start then behind
    else g.behindFrom (match p.kind with
      | .token kind => kind ∈ endKinds
      | .blank | .comment | .doc => behind
      | .markup | .broken _ => false) (n + Text.width p.text) ps

theorem AttributeGroup.behind_of_behindFrom {behind : Bool} (hcut : cut source = A ++ R)
    (hbehind : behind = true → EndsMember A) (h : g.behindFrom behind (Reading.extent A) R = true) :
    g.Behind source := by
  induction R generalizing behind A with
  | nil => cases h
  | cons p R ih =>
    rw [behindFrom] at h
    split at h
    · rename_i hstart
      exact ⟨A, p :: R, hcut, hstart, hbehind h⟩
    · have hextent : Reading.extent A + Text.width p.text = Reading.extent (A ++ [p]) := by
        simp [Reading.extent]
      rw [hextent] at h
      refine ih (by rw [hcut]; simp) (fun hb => ?_) h
      split at hb
      · rename_i kind hkind
        exact endsMember_of_token hkind (of_decide_eq_true hb)
      · rename_i hkind
        exact (hbehind hb).concat (.inl hkind)
      · rename_i hkind
        exact (hbehind hb).concat (.inr (.inl hkind))
      · rename_i hkind
        exact (hbehind hb).concat (.inr (.inr hkind))
      · cases hb
      · cases hb

/-- After such a token no word `function` before it is read otherwise. -/
theorem silent_of_last {f : Nat → Nat} {y : Nat} (h : Copied f 0 y 0 0 source out l l')
    (hl : tokenize source = .ok l) (hlast : ∀ q, q + 1 = y → ∃ kind ∈ endKinds, l.kindAt q = some kind) :
    Copied.Silent 0 y 0 l l' := by
  intro i t _ hi ht hword hnone
  have hn := nested_of_tokenize hl
  have hnot : ∀ q kind, q < y → l.kindAt q = some kind → kind ∉ endKinds → q + 1 < y := by
    intro q kind hq hk hkind
    refine Nat.lt_of_le_of_ne hq fun heq => ?_
    obtain ⟨kind', hmem, hk'⟩ := hlast q heq
    exact hkind (Option.some.inj (hk.symm.trans hk') ▸ hmem)
  have hsame : ∀ q, q < y → l'.tokens[q]? = (l.tokens[q]?).map (Token.carried f (fun _ => Span.shift 0) q) :=
    fun q hq => h.token q (Nat.zero_le q) hq
  have hi' : i + 1 < y := by
    refine hnot i .name hi ?_ (by decide)
    rw [Token.isWord, Bool.and_eq_true] at hword
    rw [kindAt, ht, Option.map_some, of_decide_eq_true hword.1]
  cases hsig : l'.signature i with
  | none => rfl
  | some sig =>
    exfalso
    obtain ⟨name, params⟩ := sig
    unfold signature at hsig hnone
    have hany : (l'.tokens[i + 1]?).any (·.text == ['&']) = (l.tokens[i + 1]?).any (·.text == ['&']) := by
      rw [hsame _ hi']
      cases l.tokens[i + 1]? <;> rfl
    rw [hany] at hsig
    generalize hj : (if (l.tokens[i + 1]?).any (·.text == ['&']) = true then i + 2 else i + 1) = j at hsig hnone
    have hjy : j < y := by
      rw [← hj]
      split
      · rename_i hamp
        obtain ⟨v, hv, htext⟩ := (Option.any_eq_true _ _).mp hamp
        refine hnot (i + 1) .other hi' ?_ (by decide)
        rw [kindAt, hv, Option.map_some, kind_of_ampersand hl hv (eq_of_beq htext)]
      · exact hi'
    -- the name and the parenthesis stand before the token
    obtain ⟨n, hname, hsig⟩ := Option.bind_eq_some_iff.mp hsig
    obtain ⟨opener, hopener, -⟩ := Option.bind_eq_some_iff.mp hsig
    obtain ⟨hname, hnkind⟩ := Option.filter_eq_some_iff.mp hname
    obtain ⟨hopener, hokind⟩ := Option.filter_eq_some_iff.mp hopener
    rw [hsame j hjy] at hname
    obtain ⟨u, hu, rfl⟩ := Option.map_eq_some_iff.mp hname
    have hukind : u.kind = .name := of_decide_eq_true hnkind
    have hjy' := hnot j .name hjy (by rw [kindAt, hu, Option.map_some, hukind]) (by decide)
    rw [hsame _ hjy'] at hopener
    obtain ⟨v, hv, rfl⟩ := Option.map_eq_some_iff.mp hopener
    have hvkind : v.kind = .openParen := of_decide_eq_true hokind
    obtain ⟨q, hq, -⟩ := exists_partner hn hv (by rw [hvkind]; rfl)
    dsimp only at hnone
    rw [hu, Option.filter_some, if_pos (by rw [hukind]; rfl)] at hnone
    simp [hv, Option.filter, hvkind, hq] at hnone

/-! ## §4 Groups with the blanks that go with them -/

namespace AttributeGroup

/-- The pieces `M` after the pieces `P` are those of a group and of the blanks that go with it. -/
structure Detachment (g : AttributeGroup) (P M : List Piece) : Prop where
  pieces : ∃ b w G, M = blanks b ++ (G ++ blanks w) ∧ (∀ c ∈ b, isIndent c = true) ∧
    Reading.extent (P ++ blanks b) = g.span.start ∧ Reading.extent (P ++ blanks b ++ G) = g.span.stop
  behind : EndsMember P

/-- The text of the pieces that stand before an offset. -/
theorem text_of_extent {x y : Text} (h : cut source = A ++ R) (hsource : source = x ++ y)
    (hextent : Reading.extent A = Text.width x) : A.flatMap Piece.text = x ∧ R.flatMap Piece.text = y := by
  have htext : A.flatMap Piece.text ++ R.flatMap Piece.text = x ++ y := by
    rw [← List.flatMap_append, ← h, cut_flatten, hsource]
  have hbefore := Text.before_width (A.flatMap Piece.text) (R.flatMap Piece.text)
  rw [htext, show Text.width (A.flatMap Piece.text) = Text.width x from hextent, Text.before_width] at hbefore
  subst hbefore
  exact ⟨rfl, List.append_cancel_left htext⟩

/-- A group that stands behind the end of something can be detached. -/
theorem exists_detachment (hl : tokenize source = .ok l) (hg : GroupAt l source g o c)
    (hbehind : g.Behind source) :
    ∃ P M Q, cut source = P ++ (M ++ Q) ∧ Detachment g P M ∧
      Edit.takeOut source g.span = .delete ⟨Reading.extent P, Reading.extent (P ++ M)⟩ := by
  obtain ⟨u, b, z, w, v, hsource, hstart, hstop, hb, hw, htake⟩ := Edit.takeOut_parts (hg.framed hl)
  have hC : ∀ p ∈ cut source, p.text ≠ [] := fun p hp => text_ne_nil_of_mem_cut hp
  obtain ⟨t, ht, htstart⟩ := hg.covers.first
  obtain ⟨t', ht', htstop⟩ := hg.covers.last
  obtain ⟨A₀, p₀, R₀, hcut₀, hp₀, -, -, hA₀, -⟩ := exists_piece hl ht
  obtain ⟨A₁, p₁, R₁, hcut₁, -, -, -, -, hA₁⟩ := exists_piece hl ht'
  have hcut₁ : cut source = (A₁ ++ [p₁]) ++ R₁ := by rw [hcut₁]; simp
  -- the blanks before the group and after it
  obtain ⟨htext₀, -⟩ := text_of_extent hcut₀ (x := u ++ b) (y := z ++ (w ++ v)) (by rw [hsource]; simp)
    (by rw [hA₀, htstart, hstart])
  obtain ⟨htext₁, hrest₁⟩ := text_of_extent hcut₁ (x := u ++ b ++ z) (y := w ++ v) (by rw [hsource]; simp)
    (by rw [hA₁, htstop, hstop])
  obtain ⟨P, rfl, hP⟩ := exists_blanks hcut₀ htext₀ hb
    (by rw [hp₀]; exact ⟨by simp, fun h => by simp [h] at hp₀⟩)
  obtain ⟨Q, rfl⟩ := exists_blanks_after hcut₁ (by simp) hrest₁ hw
  obtain ⟨G, hG⟩ : P ++ blanks b <+: A₁ ++ [p₁] := by
    refine prefix_of_extent hC ⟨_, hcut₀.symm⟩ ⟨_, hcut₁.symm⟩ ?_
    have := hg.covers.lt hl
    omega
  rw [← hG] at hcut₁ htext₁ hA₁
  have hextent : Reading.extent (P ++ (blanks b ++ (G ++ blanks w))) = Text.width (u ++ b ++ z ++ w) := by
    rw [Text.width_append, ← htext₁, ← List.append_assoc, ← List.append_assoc,
      extent_append (P ++ blanks b ++ G)]
    exact congrArg (_ + ·) (congrArg Text.width (flatMap_blanks w))
  refine ⟨P, blanks b ++ (G ++ blanks w), Q, by rw [hcut₁]; simp,
    ⟨⟨b, w, G, rfl, hb, hA₀.trans htstart, hA₁.trans htstop⟩, ?_⟩, ?_⟩
  · obtain ⟨_, R', hcutB, hextentB, A', p, B, rfl, hkind, hfill⟩ := hbehind
    have heq : P ++ blanks b = A' ++ p :: B := eq_of_extent hC ⟨_, hcut₀.symm⟩ ⟨R', hcutB.symm⟩
      ((hA₀.trans htstart).trans hextentB.symm)
    obtain ⟨D, -, hD⟩ | ⟨D, rfl, rfl⟩ := parts_of_append heq
    · exfalso
      have hmem : p ∈ blanks b := by rw [hD]; simp
      obtain ⟨d, -, rfl⟩ := List.mem_map.mp hmem
      obtain ⟨kind, -, hk⟩ := hkind
      cases hk
    · exact ⟨A', p, D, rfl, hkind, fun q hq => hfill q (List.mem_append_left _ hq)⟩
  · rw [htake, hextent, Reading.extent, hP]

theorem endKinds_seals : ∀ kind ∈ endKinds, kind.seals = true := by decide

/-- What stands before a group that can be detached ends by itself. -/
theorem Detachment.exists_seals (h : Detachment g P M)
    (hcut : cut source = P ++ (q :: R)) (hq : q.kind ≠ .markup ∧ q ≠ ⟨.blank, ['\n']⟩) :
    ∃ P₀ p, P = P₀ ++ [p] ∧ p.seals = true := by
  obtain ⟨A, p, B, rfl, ⟨kind, hmem, hkind⟩, hfill⟩ := h.behind
  obtain ⟨P₀, p', hP⟩ : ∃ P₀ p', A ++ p :: B = P₀ ++ [p'] := by
    obtain hnil | ⟨P₀, p', hP⟩ := List.eq_nil_or_concat (A ++ p :: B)
    · simp at hnil
    · exact ⟨P₀, p', hP.trans List.concat_eq_append⟩
  refine ⟨P₀, p', hP, ?_⟩
  have hp' : p' = p ∨ p' ∈ B := by
    have hlast := congrArg List.getLast? hP
    rw [List.getLast?_append_of_ne_nil _ (by simp), List.getLast?_cons, List.getLast?_concat] at hlast
    cases hB : B.getLast? with
    | none =>
      rw [hB] at hlast
      exact .inl (Option.some.inj hlast).symm
    | some d =>
      rw [hB] at hlast
      exact .inr (Option.some.inj hlast ▸ List.mem_of_getLast? hB)
  have hcut' : cut source = P₀ ++ p' :: q :: R := by rw [hcut, hP]; simp
  refine seals_of_follow hcut' hq (fun k hk => ?_) (fun hk => ?_) fun d hk => ?_
  all_goals obtain rfl | hp' := hp'
  · rw [hkind] at hk
    cases hk
    exact endKinds_seals _ hmem
  · obtain h | h | h := hfill p' hp' <;> rw [h] at hk <;> cases hk
  · rw [hkind] at hk
    cases hk
  · obtain h | h | h := hfill p' hp' <;> rw [h] at hk <;> cases hk
  · rw [hkind] at hk
    cases hk
  · obtain h | h | h := hfill p' hp' <;> rw [h] at hk <;> cases hk

/-- The last token before a group that can be detached ends something. -/
theorem Detachment.kindAt_last (h : Detachment g P M) (hl : tokenize source = .ok l)
    (hcut : cut source = P ++ R)
    {j : Nat} (hj : j + 1 = countIn P) : ∃ kind ∈ endKinds, l.kindAt j = some kind := by
  obtain ⟨A, p, B, rfl, ⟨kind, hmem, hkind⟩, hfill⟩ := h.behind
  refine ⟨kind, hmem, ?_⟩
  have hB : countIn B = 0 := by
    rw [countIn, List.length_eq_zero_iff, List.filterMap_eq_nil_iff]
    intro q hq
    obtain h | h | h := hfill q hq <;> simp [wordOf, h]
  have hcount : countIn (A ++ p :: B) = countIn A + 1 := by
    rw [countIn_append, countIn_cons hkind, hB]
  obtain rfl : j = countIn A := by omega
  exact kindAt_of_cut hl (Q := B ++ R) (by rw [hcut]; simp) hkind

/-- What is taken out begins with the blanks before the group. -/
theorem Detachment.exists_opener (h : Detachment g P M) (hl : tokenize source = .ok l)
    (hg : GroupAt l source g o c)
    (hcut : cut source = P ++ (M ++ Q)) : ∃ b p R, M ++ Q = blanks b ++ p :: R ∧ (∀ c ∈ b, isIndent c = true) ∧
      p.kind = .token .attrOpen ∧ countIn P = o := by
  obtain ⟨b, w, G, rfl, hb, hstart, -⟩ := h.pieces
  obtain ⟨t, ht, htstart⟩ := hg.covers.first
  obtain ⟨A, p, R, hcutA, hp, -, hcount, hA, -⟩ := exists_piece hl ht
  obtain rfl : A = P ++ blanks b := eq_of_extent (fun p hp => text_ne_nil_of_mem_cut hp) ⟨_, hcutA.symm⟩
    ⟨G ++ blanks w ++ Q, by rw [hcut]; simp⟩ ((hA.trans htstart).trans hstart.symm)
  rw [countIn_append, countIn_blanks, Nat.add_zero] at hcount
  have hkind := hg.kind
  rw [kindAt, ht] at hkind
  refine ⟨b, p, R, ?_, hb, hp.trans (congrArg _ (Option.some.inj hkind)), hcount⟩
  rw [hcut, List.append_assoc P] at hcutA
  exact List.append_cancel_left hcutA

/-- The tokens of a group that can be detached. -/
theorem Detachment.counts (h : Detachment g P M) (hl : tokenize source = .ok l) (hg : GroupAt l source g o c)
    (hcut : cut source = P ++ (M ++ Q)) : countIn P = o ∧ countIn P + countIn M = c + 1 := by
  obtain ⟨-, -, -, -, -, -, hfirst⟩ := h.exists_opener hl hg hcut
  obtain ⟨b, w, G, rfl, hb, -, hstop⟩ := h.pieces
  obtain ⟨t, ht, htstop⟩ := hg.covers.last
  obtain ⟨A, p, R, hcutA, hp, -, hcount, -, hA⟩ := exists_piece hl ht
  have heq : A ++ [p] = P ++ blanks b ++ G := eq_of_extent (fun p hp => text_ne_nil_of_mem_cut hp)
    ⟨R, by rw [hcutA]; simp⟩ ⟨blanks w ++ Q, by rw [hcut]; simp⟩ ((hA.trans htstop).trans hstop.symm)
  have hcounts := congrArg countIn heq
  simp only [countIn_append, countIn_blanks, countIn_singleton hp] at hcounts ⊢
  omega

/-- A tidy group that can be detached, and that names targets only, can be taken out. -/
theorem Detachment.excision (h : Detachment g P M) (hl : tokenize source = .ok l) (hg : GroupAt l source g o c)
    (htidy : g.Tidy source) (hcut : cut source = P ++ (M ++ Q))
    (htarget : ∀ a ∈ g.attributes, ∃ imports target, a.target imports = some target) :
    Excision source l P M Q := by
  have hn := nested_of_tokenize hl
  have hlt := hg.lt
  obtain ⟨hfirst, hlast⟩ := h.counts hl hg hcut
  obtain ⟨hkinds, -⟩ := htidy.stretch hl hg (Nat.lt_succ_self o) (Nat.le_refl c) fun a ha i e hcovers => by
    obtain ⟨i', e', t, -, -, rfl, he, hoi, hie, hec⟩ := exists_occupied_of_mem hn hg ha
    obtain ⟨rfl, rfl⟩ := hcovers.eq hl he.covers
    exact .inr (.inr ⟨hoi, hec, htarget _ ha⟩)
  have hclose := hg.close hn
  refine ⟨hcut, ?_, ?_, ?_, .inr fun j hj => ?_⟩
  · obtain ⟨b, p, R, hMQ, hb, hp, -⟩ := h.exists_opener hl hg hcut
    obtain ⟨q, R', hnext, hq⟩ : ∃ q R', M ++ Q = q :: R' ∧ q.kind ≠ .markup ∧ q ≠ ⟨.blank, ['\n']⟩ := by
      cases b with
      | nil => exact ⟨p, R, hMQ, by simp [hp], fun he => by simp [he] at hp⟩
      | cons d b =>
        refine ⟨⟨.blank, [d]⟩, _, hMQ, by simp, fun he => ?_⟩
        have hd := hb d List.mem_cons_self
        obtain rfl : d = '\n' := by simpa using he
        exact absurd hd (by decide)
    obtain ⟨P₀, p₀, rfl, hseals⟩ := h.exists_seals (hnext ▸ hcut) hq
    have := cut_without_of_seals (P := P₀) (p := p₀) (M := M) (Q := Q) (by rw [hcut]; simp) hseals
      (by simp [hnext])
    simpa using this
  · have henclosed := enclosed_of_partner hn hlt hg.partner
    rw [← hlast, ← hfirst] at henclosed
    exact block_of_enclosed hl hcut henclosed
  · intro j hj kind hkind he
    have hnot : ∀ kind ∈ TokenKind.attrOpen :: .closeBracket :: attributeKinds,
        kind ∉ [TokenKind.openBrace, .closeBrace, .semicolon] := by decide
    rw [hfirst] at he
    by_cases hjo : j = 0
    · rw [hjo, Nat.add_zero, hg.kind] at he
      exact hnot _ (by simp) (Option.some.inj he ▸ hkind)
    · by_cases hjc : o + j = c
      · rw [hjc, hclose] at he
        exact hnot _ (by simp) (Option.some.inj he ▸ hkind)
      · obtain ⟨kind', hmem, hkind'⟩ := hkinds (o + j) (by omega) (by omega)
        rw [he] at hkind'
        exact hnot kind' (by simp [hmem]) (Option.some.inj hkind' ▸ hkind)
  · obtain ⟨kind, hmem, hkind⟩ := h.kindAt_last hl hcut hj
    rw [hkind]
    rintro ⟨⟩
    revert hmem
    decide

/-! ## §5 What is left of a group -/

variable {block : Array Token} {as bs cs : List Attribute}

/-- Nothing is left of a group that is detached. -/
theorem Detachment.remainder (h : Detachment g P M) (hl : tokenize source = .ok l) (hg : GroupAt l source g o c)
    (hcut : cut source = P ++ (M ++ Q))
    (hins : Inserted (countIn P) (countIn M) block (P.flatMap Piece.text) (M.flatMap Piece.text) l' l) :
    Remainder g o c P M l ((P ++ Q).flatMap Piece.text) l' [] := by
  obtain ⟨hfirst, hlast⟩ := h.counts hl hg hcut
  obtain ⟨hsource, hout⟩ := texts_of_cut hcut
  have hback := hins.copied_back (b := Q.flatMap Piece.text)
  rw [← hsource, ← hout] at hback
  refine ⟨hfirst.ge, hlast.le, ?_, fun close _ => ?_, .inl ⟨rfl, ?_⟩⟩
  · rw [hfirst] at hback
    exact silent_of_last hback hl fun q hq => h.kindAt_last hl hcut (by omega)
  · rw [show c + 1 - countIn M = o by omega]
    exact .nil o
  · obtain ⟨b, w, G, rfl, -, hstart, hstop⟩ := h.pieces
    have hlt := hg.covers.lt hl
    rw [extent_append] at hstart
    refine ⟨by omega, ?_, fun d hd => ?_⟩
    · simp only [extent_append] at hstop ⊢
      omega
    · rw [docsIn_append, docsIn_of_none _ (by simp [blanks]), List.nil_append] at hd
      have := (bounds_of_mem_docsIn hd).1
      omega

/-- The group that some attributes are taken out of is left. -/
theorem Trim.exists_remainder (h : Trim source l g o c as cs bs P M Q) (hl : tokenize source = .ok l)
    (hg : GroupAt l source g o c) (hl' : tokenize ((P ++ Q).flatMap Piece.text) = .ok l')
    (hins : Inserted (countIn P) (countIn M) block (P.flatMap Piece.text) (M.flatMap Piece.text) l' l) :
    ∃ g', Remainder g o c P M l ((P ++ Q).flatMap Piece.text) l' [g'] ∧
      Trimmed g g' as bs (countIn M) (Reading.extent M) := by
  obtain ⟨g', hparse, htrimmed⟩ := h.reads l' block hl' hins
  have hopener := h.opener
  have hclose := h.close
  have hnext := htrimmed.next
  rw [hg.next] at hnext
  obtain ⟨hsource, hout⟩ := texts_of_cut h.cut
  have hback := hins.copied_back (b := Q.flatMap Piece.text)
  rw [← hsource, ← hout] at hback
  refine ⟨g', ⟨hopener.le, by omega, ?_, fun close hlt => ?_, .inr ⟨g', rfl, htrimmed.start, ?_⟩⟩, htrimmed⟩
  · refine (hback.mono (Nat.le_refl 0) hopener.le (fun q hq => by omega) fun q hq => by
      unfold unlift
      split <;> omega).silent hins.nested' fun v hv => ?_
    obtain ⟨c', hat⟩ := exists_groupAt hins.nested hparse
    have hkind := hat.kind
    rw [kindAt, show l'.tokens[o]? = some v from hv] at hkind
    exact ⟨Option.some.inj hkind, text_of_attrOpen hl' hv (Option.some.inj hkind)⟩
  · have hpath := path_of_parse hparse (show o < close by omega) (by omega)
    rwa [show g'.next = c + 1 - countIn M by omega] at hpath
  · obtain ⟨t, ht, hstart⟩ := hg.covers.first
    have hstop := (lt_countIn_iff hl h.cut ht).mp hopener
    have := token_lt hl ht
    omega

end AttributeGroup

end Source

end Crosslink
