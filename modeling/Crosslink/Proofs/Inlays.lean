import Crosslink.Proofs.Bodies
import Crosslink.Proofs.Comments
import Crosslink.Proofs.Margins

/-!
# Texts set into a source

Where a blank, a bracket, a comma or a semicolon ends and nothing is open that goes on, a text that can be
read on its own can be set into a source. No piece of the source looks across the place: what stands before
it ends with a character that is a piece by itself, and so does the text. And the brackets of the text pair
among themselves, so that as many are open behind it as before.

* §1 `TokenSequence.inlay`, the tokens and comments of the source with those of the text among them.
* §2 `Inlet`, the places, and `SelfContained`, the texts.
* §3 The pieces before a place.
* §4 The pieces of a text.
* §5 `tokenize_inlay`.
-/

namespace Crosslink.Source

open TokenSequence

/-! ## §1 Tokens among others -/

/-- A token as many bytes on, whose partner is found where `f` says. -/
def Token.moved (w : Nat) (f : Nat → Nat) (t : Token) : Token :=
  { t with span := t.span.shift w, partner := t.partner.map f }

/-- The tokens that end at an offset or before it. -/
def TokenSequence.tokensTo (l : TokenSequence) (offset : Nat) : List Token :=
  l.tokens.toList.filter (·.span.stop ≤ offset)

/-- The tokens that end behind an offset. -/
def TokenSequence.tokensBehind (l : TokenSequence) (offset : Nat) : List Token :=
  l.tokens.toList.filter (offset < ·.span.stop)

/-- The tokens of a source that has a text of `w` bytes more at an offset, when `m` are those of the text. -/
def TokenSequence.inlay (l m : TokenSequence) (offset w : Nat) : TokenSequence :=
  let before := (l.tokensTo offset).length
  let more := m.tokens.size
  { tokens := ((l.tokensTo offset).map (Token.moved 0 (lift before more)) ++
      (m.tokens.toList.map (Token.moved offset (· + before)) ++
        (l.tokensBehind offset).map (Token.moved w (lift before more)))).toArray
    docs := l.docs.filter (·.stop ≤ offset) ++
      (m.docs.map (Span.shift offset) ++ (l.docs.filter (offset < ·.stop)).map (Span.shift w)) }

/-! ## §2 Places and texts -/

/-- True for a text that ends with a blank, a bracket, a comma or a semicolon. -/
def endsWithStop (a : Text) : Bool := a.getLast?.any fun c => (stopKind c).isSome

/-- A text can go in between `a` and `b`: the character before is a blank, a bracket, a comma or a
semicolon and belongs to no comment or inline markup, and no token goes on. (No string ends with such a
character, so it belongs to none.) -/
structure Inlet (l : TokenSequence) (a b : Text) : Prop where
  stop : endsWithStop a = true
  tokens : ∀ t ∈ l.tokens.toList, ¬(t.span.start < Text.width a ∧ Text.width a < t.span.stop)
  fillers : ∀ d ∈ spansIn (fun q => q.isComment || q.kind = .markup) 0 (cut (a ++ b)),
    ¬(d.start < Text.width a ∧ Text.width a ≤ d.stop)

/-- A text that stays with itself: it has no tags, and no comment reaches to its end. -/
structure SelfContained (w : Text) : Prop where
  untagged : ¬ "<?".toList <:+: w
  unclosed : ¬ "?>".toList <:+: w
  stop : endsWithStop w = true
  comments : ∀ d ∈ Source.comments w, d.stop ≠ Text.width w

instance (l : TokenSequence) (a b : Text) : Decidable (Inlet l a b) :=
  decidable_of_iff (_ ∧ _ ∧ _) ⟨fun ⟨stop, tokens, fillers⟩ => ⟨stop, tokens, fillers⟩,
    fun h => ⟨h.stop, h.tokens, h.fillers⟩⟩

instance (w : Text) : Decidable (SelfContained w) :=
  decidable_of_iff (_ ∧ _ ∧ _ ∧ _)
    ⟨fun ⟨untagged, unclosed, stop, comments⟩ => ⟨untagged, unclosed, stop, comments⟩,
      fun h => ⟨h.untagged, h.unclosed, h.stop, h.comments⟩⟩

/-! ## §3 The pieces before a place -/

variable {source a b w : Text} {l m : TokenSequence} {P Q : List Piece} {q : Piece} {p : Nat} {c : Char}

/-- The piece that the character before an offset belongs to. -/
theorem exists_piece_before (ps : List Piece) (hp : 0 < p) (hle : p ≤ Reading.extent ps) :
    ∃ P q Q, ps = P ++ q :: Q ∧ Reading.extent P < p ∧ p ≤ Reading.extent (P ++ [q]) := by
  induction ps generalizing p with
  | nil => simp [Reading.extent] at hle; omega
  | cons q ps ih =>
    rw [extent_cons] at hle
    obtain h | h := Nat.lt_or_ge (Text.width q.text) p
    · obtain ⟨P, q', Q, rfl, hlt, hle'⟩ := ih (p := p - Text.width q.text) (by omega) (by omega)
      refine ⟨q :: P, q', Q, rfl, ?_, ?_⟩
      · rw [extent_cons]
        omega
      · rw [List.cons_append, extent_cons]
        omega
    · refine ⟨[], q, ps, rfl, by simpa [Reading.extent] using hp, ?_⟩
      simpa [Reading.extent] using h

theorem mem_spansIn {f : Piece → Bool} (offset : Nat) (P Q : List Piece) (hq : f q = true) :
    ⟨offset + Reading.extent P, offset + Reading.extent (P ++ [q])⟩ ∈ spansIn f offset (P ++ q :: Q) := by
  induction P generalizing offset with
  | nil => simp [spansIn, hq, Reading.extent]
  | cons r P ih =>
    rw [List.cons_append, spansIn, List.cons_append, extent_cons, extent_cons, ← Nat.add_assoc,
      ← Nat.add_assoc]
    exact List.mem_append_right _ (ih _)

theorem mem_spansIn_zero {f : Piece → Bool} {ps : List Piece} (h : ps = P ++ q :: Q) (hq : f q = true) :
    ⟨Reading.extent P, Reading.extent (P ++ [q])⟩ ∈ spansIn f 0 ps := by
  have hmem := mem_spansIn 0 P Q hq
  rwa [Nat.zero_add, Nat.zero_add, ← h] at hmem

/-- The token that a piece is. -/
theorem exists_token_of_piece (hl : tokenize source = .ok l) (hcut : cut source = P ++ q :: Q)
    {kind : TokenKind} (hq : q.kind = .token kind) :
    ∃ t ∈ l.tokens.toList, t.span = ⟨Reading.extent P, Reading.extent (P ++ [q])⟩ := by
  have hbare := (bare_of_tokenize hl).1
  have hmem : (⟨kind, ⟨Reading.extent P, Reading.extent (P ++ [q])⟩, q.text, none⟩ : Token) ∈
      l.tokens.toList.map Token.bare := by
    rw [hbare, hcut, tokensIn_append, tokensIn, tokenAt, hq]
    refine List.mem_append_right _ (List.mem_append_left _ ?_)
    simp [Reading.extent]
  obtain ⟨t, ht, hspan⟩ := List.mem_map.mp hmem
  exact ⟨t, ht, (congrArg Token.span hspan :)⟩

/-- A piece that is no comment or markup. -/
theorem exists_kind (hbroken : ∀ d, q.kind ≠ .broken d) (hcomment : q.isComment = false)
    (hmarkup : q.kind ≠ .markup) : q.kind = .blank ∨ ∃ kind, q.kind = .token kind := by
  cases hk : q.kind with
  | blank => exact .inl rfl
  | token kind => exact .inr ⟨kind, rfl⟩
  | comment => simp [Piece.isComment, hk] at hcomment
  | doc => simp [Piece.isComment, hk] at hcomment
  | markup => exact absurd hk hmarkup
  | broken defect => exact absurd hk (hbroken defect)

/-- A piece of code is measured where it begins. -/
theorem exists_measured (hcode : q :: Q = cutCode ((q :: Q).flatMap Piece.text)) :
    ∃ c cs, (q :: Q).flatMap Piece.text = c :: cs ∧
      q = ⟨(measure c cs).1, c :: cs.take (measure c cs).2⟩ := by
  cases htext : (q :: Q).flatMap Piece.text with
  | nil =>
    rw [htext] at hcode
    simp [cutCode] at hcode
  | cons c cs =>
    rw [htext, cutCode_cons] at hcode
    exact ⟨c, cs, rfl, (List.cons.inj hcode).1⟩

theorem isAsciiBlank_of_blank (h : stopKind c = some .blank) : isAsciiBlank c = true := by
  by_contra hno
  rw [stopKind, if_neg hno] at h
  iterate 8
    split at h
    · cases h
  cases h

theorem width_of_blank (hcode : q :: Q = cutCode ((q :: Q).flatMap Piece.text)) (hq : q.kind = .blank) :
    Text.width q.text = 1 := by
  obtain ⟨c, cs, -, rfl⟩ := exists_measured hcode
  obtain ⟨hc, hzero⟩ := measure_of_blank hq
  have hblank := isAsciiBlank_of_blank hc
  rw [hzero]
  simp only [isAsciiBlank, Bool.or_eq_true, decide_eq_true_eq] at hblank
  obtain (((rfl | rfl) | rfl) | rfl) | rfl := hblank <;> rfl

/-- A blank or a token that ends with a stop ends by itself. -/
theorem solid_of_last (hcode : q :: Q = cutCode ((q :: Q).flatMap Piece.text))
    (hkind : q.kind = .blank ∨ ∃ kind, q.kind = .token kind) (hlast : c ∈ q.text.getLast?)
    (hc : (stopKind c).isSome = true) :
    Solid q.text [q] ∧ ∃ d v, q.text = d :: v ∧ d ∉ outsetChars ∧ (d = '?' → v.head? = some '>') := by
  obtain ⟨d, ds, -, rfl⟩ := exists_measured hcode
  obtain hk | ⟨kind, hk⟩ := hkind
  · exact solid_of_sealing (.inl hk)
  · refine solid_of_sealing (.inr ⟨kind, hk, ?_⟩)
    by_contra hno
    rw [stopKind_of_last hk (Bool.eq_false_iff.mpr hno) hlast] at hc
    cases hc

/-- Texts of the same number of bytes that a source begins with are the same. -/
theorem eq_of_width {x y x' y' : Text} (h : x ++ y = x' ++ y') (hwidth : Text.width x = Text.width x') :
    x = x' := by
  have hbefore := Text.before_width x y
  rwa [h, hwidth, Text.before_width, eq_comm] at hbefore

/-- The last piece before a place where a text can go in is a blank or a token, and it ends there. -/
theorem Inlet.exists_last (hl : tokenize (a ++ b) = .ok l) (h : Inlet l a b) :
    ∃ P q Q, cut (a ++ b) = P ++ q :: Q ∧ q.kind ≠ .markup ∧
      (q.kind = .blank ∨ ∃ kind, q.kind = .token kind) ∧ Text.width a = Reading.extent (P ++ [q]) := by
  obtain ⟨c, hlast, -⟩ := (Option.any_eq_true _ _).mp h.stop
  have hpos : 0 < Text.width a := by
    cases a with
    | nil => cases hlast
    | cons d a => exact Nat.add_pos_left d.utf8Size_pos _
  have hextent : Reading.extent (cut (a ++ b)) = Text.width a + Text.width b := by
    rw [Reading.extent, cut_flatten, Text.width_append]
  obtain ⟨P, q, Q, hcut, hlt, hle⟩ := exists_piece_before (cut (a ++ b)) hpos (by omega)
  obtain ⟨hcomment, hmarkup⟩ : q.isComment = false ∧ q.kind ≠ .markup := by
    have hno := mt (fun hq => h.fillers _ (mem_spansIn_zero hcut hq)) (not_not_intro ⟨hlt, hle⟩)
    simpa using hno
  have hkind := exists_kind (ne_broken_of_tokenize hl (p := q) (by rw [hcut]; simp)) hcomment hmarkup
  refine ⟨P, q, Q, hcut, hmarkup, hkind, ?_⟩
  -- it ends at the place: a blank is one byte, and no token goes on
  obtain hk | ⟨kind, hk⟩ := hkind
  · have := width_of_blank (cut_suffix_of_ne_markup hcut hmarkup) hk
    rw [extent_append] at hle ⊢
    simp only [Reading.extent, List.flatMap_singleton] at hlt hle ⊢
    omega
  · obtain ⟨t, ht, hspan⟩ := exists_token_of_piece hl hcut hk
    have := h.tokens t ht
    rw [hspan] at this
    dsimp only at this
    omega

/-- The pieces before a place where a text can go in, the last of which ends by itself. -/
theorem Inlet.exists_pieces (hl : tokenize (a ++ b) = .ok l) (h : Inlet l a b) :
    ∃ P q, cut (a ++ b) = P ++ q :: cutCode b ∧ P.flatMap Piece.text ++ q.text = a ∧
      q.kind ≠ .markup ∧ Solid q.text [q] ∧
      ∃ d v, q.text = d :: v ∧ d ∉ outsetChars ∧ (d = '?' → v.head? = some '>') := by
  obtain ⟨c, hlast, hc⟩ := (Option.any_eq_true _ _).mp h.stop
  obtain ⟨P, q, Q, hcut, hmarkup, hkind, hstop⟩ := h.exists_last hl
  have hcode := cut_suffix_of_ne_markup hcut hmarkup
  have hparts : a ++ b = (P.flatMap Piece.text ++ q.text) ++ Q.flatMap Piece.text := by
    conv => lhs; rw [source_eq hcut]
    simp
  have ha : a = P.flatMap Piece.text ++ q.text :=
    eq_of_width hparts (by simpa [Reading.extent] using hstop)
  have hb : b = Q.flatMap Piece.text := by
    rw [← ha] at hparts
    exact List.append_cancel_left hparts
  have hQ : Q = cutCode b := by
    rw [hb]
    exact cut_suffix (P := P ++ [q]) (by simpa using hcut) (by simp)
  rw [ha, getLast?_append_of_ne_nil _ (text_ne_nil_of_cons hcode)] at hlast
  exact ⟨P, q, hQ ▸ hcut, ha.symm, hmarkup, solid_of_last hcode hkind hlast hc⟩

/-! ## §4 The pieces of a text -/

theorem infix_of_markup {v : Text} (h : v.head? = some '>') : "?>".toList <:+: '?' :: v := by
  obtain ⟨v, rfl⟩ := List.head?_eq_some_iff.mp h
  exact ⟨[], v, rfl⟩

/-- A text that stays with itself is cut as it is, whatever comes after it. -/
theorem SelfContained.solid (hm : tokenize w = .ok m) (h : SelfContained w) : Solid w (cutCode w) := by
  have huntagged : cut w = cutCode w := cut_of_untagged h.untagged
  obtain ⟨c, hlast, hc⟩ := (Option.any_eq_true _ _).mp h.stop
  obtain hnil | ⟨P, q, hcut⟩ := List.eq_nil_or_concat (cutCode w)
  · rw [← cutCode_flatten w, hnil] at hlast
    cases hlast
  rw [List.concat_eq_append] at hcut
  have hw : P.flatMap Piece.text ++ q.text = w := by
    rw [← cutCode_flatten w, hcut, List.flatMap_append, List.flatMap_singleton]
  have hcode : [q] = cutCode ([q].flatMap Piece.text) := cutCode_suffix hcut
  obtain ⟨c', cs, htext, hq⟩ := exists_measured hcode
  rw [List.flatMap_singleton] at htext
  -- the last piece is a blank or a token, since no comment and no markup reaches to the end
  have hopen : ∀ v, q.text = '?' :: v → v.head? ≠ some '>' := fun v hv hhead =>
    h.unclosed (((infix_of_markup hhead).trans ⟨_, [], by rw [List.append_nil, ← hv]; exact hw⟩))
  have hcomment : q.isComment = false := by
    refine Bool.eq_false_iff.mpr fun hcomment => ?_
    refine h.comments _ (mem_spansIn_zero (huntagged.trans hcut) hcomment) ?_
    show Reading.extent (P ++ [q]) = Text.width w
    rw [← hcut, Reading.extent, cutCode_flatten]
  have hmarkup : q.kind ≠ .markup := by
    intro hk
    rw [hq] at hk
    obtain ⟨rfl, hhead⟩ := measure_of_markup hk
    exact hopen _ htext hhead
  have hkind := exists_kind (ne_broken_of_tokenize hm (by rw [huntagged, hcut]; simp)) hcomment hmarkup
  rw [← hw, getLast?_append_of_ne_nil _ (text_ne_nil_of_cons hcode)] at hlast
  obtain ⟨hsolid, d, v, hd, hout, hmark⟩ := solid_of_last hcode hkind hlast hc
  have hd' : d ≠ '?' := by
    rintro rfl
    exact hopen v hd (hmark rfl)
  rw [hcut]
  rw [hd] at hw hsolid
  rw [← hw]
  refine Solid.of_boundary (b := []) rfl ?_ hout hd' hsolid
  rw [List.append_nil, hw, hcut, hcode, List.flatMap_singleton, hd]

/-! ## §5 The tokens of both -/

theorem last_ne_of_stop (h : endsWithStop w = true) : w.getLast? ≠ some '<' := by
  obtain ⟨c, hlast, hc⟩ := (Option.any_eq_true _ _).mp h
  intro hless
  obtain rfl := Option.some.inj (hlast.symm.trans hless)
  cases hc

/-- A source with a text set into it is cut into the pieces of both. -/
theorem Inlet.exists_cut (hl : tokenize (a ++ b) = .ok l) (hm : tokenize w = .ok m) (hplace : Inlet l a b)
    (hw : SelfContained w) :
    ∃ P, P.flatMap Piece.text = a ∧ cut (a ++ b) = P ++ cutCode b ∧
      cut (a ++ (w ++ b)) = P ++ (cut w ++ cutCode b) := by
  obtain ⟨P, q, hcut, ha, hmarkup, hsolid, hhead⟩ := hplace.exists_pieces hl
  have hne : q.text ≠ [] := by
    obtain ⟨d, v, hd, -⟩ := hhead
    exact hd ▸ List.cons_ne_nil d v
  have hlast := last_ne_of_stop hplace.stop
  rw [← ha, getLast?_append_of_ne_nil _ hne] at hlast
  have hnew := cut_with hcut (.inr hmarkup) hsolid hhead hlast (hw.solid hm) (last_ne_of_stop hw.stop)
    fun htag => absurd htag hw.untagged
  rw [cutCode_flatten, ← List.append_assoc, ha] at hnew
  refine ⟨P ++ [q], by rw [List.flatMap_append, List.flatMap_singleton, ha], by simpa using hcut, ?_⟩
  rw [cut_of_untagged hw.untagged]
  simpa using hnew

/-- What ends before a place and what ends behind it, when the one comes before the other. -/
theorem filter_parts {α : Type} {f : α → Nat} {n : Nat} {A B : List α} (hA : ∀ x ∈ A, f x ≤ n)
    (hB : ∀ x ∈ B, n < f x) :
    (A ++ B).filter (f · ≤ n) = A ∧ (A ++ B).filter (n < f ·) = B := by
  have hA₁ : A.filter (f · ≤ n) = A := List.filter_eq_self.mpr fun x hx => decide_eq_true (hA x hx)
  have hB₁ : B.filter (f · ≤ n) = [] := List.filter_eq_nil_iff.mpr fun x hx => by
    simpa using hB x hx
  have hA₂ : A.filter (n < f ·) = [] := List.filter_eq_nil_iff.mpr fun x hx => by
    simpa using hA x hx
  have hB₂ : B.filter (n < f ·) = B := List.filter_eq_self.mpr fun x hx => decide_eq_true (hB x hx)
  constructor
  · rw [List.filter_append, hA₁, hB₁, List.append_nil]
  · rw [List.filter_append, hA₂, hB₂, List.nil_append]

namespace Inserted

variable {k n : Nat} {block : Array Token} {l' : TokenSequence}

/-- The tokens before what is put in, and those after it. -/
theorem tokens_parts (h : Inserted k n block a w l l') (hl : tokenize (a ++ b) = .ok l) :
    l.tokensTo (Text.width a) = l.tokens.toList.take k ∧
      l.tokensBehind (Text.width a) = l.tokens.toList.drop k := by
  have hparts := filter_parts (f := fun t : Token => t.span.stop) (n := Text.width a)
    (A := l.tokens.toList.take k) (B := l.tokens.toList.drop k) (fun t ht => ?_) fun t ht => ?_
  · rwa [List.take_append_drop] at hparts
  · obtain ⟨i, hi, rfl⟩ := List.mem_take_iff_getElem.mp ht
    exact h.early i _ (by omega) (by simp)
  · obtain ⟨i, hi, rfl⟩ := List.mem_drop_iff_getElem.mp ht
    have hat : l.tokens[k + i]? = some l.tokens.toList[k + i] := by simp
    exact Nat.lt_of_le_of_lt (h.late _ _ (Nat.le_add_right k i) hat) (token_lt hl hat)

/-- The tokens of the source with what is put into it. -/
theorem tokens_eq (h : Inserted k n block a w l l') :
    l'.tokens.toList = (l.tokens.toList.take k).map (Token.moved 0 (lift k n)) ++
      (block.toList.map (Token.moved (Text.width a) (· + k)) ++
        (l.tokens.toList.drop k).map (Token.moved (Text.width w) (lift k n))) := by
  have hle := h.le_size
  have hblock := h.size_block
  -- an index before what is put in, one in it, and one after it
  refine List.ext_getElem? fun i => ?_
  obtain hi | hi := Nat.lt_or_ge i k
  · have hout := h.outside i
    rw [lift_of_lt hi] at hout
    rw [List.getElem?_append_left (by simp; omega), List.getElem?_map, List.getElem?_take_of_lt hi,
      Array.getElem?_toList, Array.getElem?_toList, hout]
    refine Option.map_congr fun t _ => ?_
    rw [Token.carried, move, if_pos hi]
    rfl
  obtain ⟨j, rfl⟩ := Nat.exists_eq_add_of_le hi
  rw [List.getElem?_append_right (by simp), List.length_map, List.length_take, Array.length_toList,
    Nat.min_eq_left hle, Nat.add_sub_cancel_left, Array.getElem?_toList]
  obtain hj | hj := Nat.lt_or_ge j n
  · rw [List.getElem?_append_left (by simpa [hblock] using hj), List.getElem?_map, Array.getElem?_toList,
      h.inside j hj]
    rfl
  · obtain ⟨j, rfl⟩ := Nat.exists_eq_add_of_le' hj
    have hout := h.outside (k + j)
    rw [lift_of_le (Nat.le_add_right k j), Nat.add_assoc] at hout
    rw [List.getElem?_append_right (by simp [hblock]), List.length_map, Array.length_toList, hblock,
      Nat.add_sub_cancel, List.getElem?_map, List.getElem?_drop, Array.getElem?_toList, hout]
    refine Option.map_congr fun t _ => ?_
    rw [Token.carried, move, if_neg (by omega)]
    rfl

end Inserted

/-- The documentation comments of the source with what is put into it. -/
theorem docs_inlaid {l' : TokenSequence} (hl : tokenize (a ++ b) = .ok l)
    (hm : tokenize w = .ok m) (hl' : tokenize (a ++ (w ++ b)) = .ok l') (hcut : cut (a ++ b) = P ++ Q)
    (hcut' : cut (a ++ (w ++ b)) = P ++ (cut w ++ Q)) (ha : P.flatMap Piece.text = a) :
    l'.docs = l.docs.filter (·.stop ≤ Text.width a) ++ (m.docs.map (Span.shift (Text.width a)) ++
      (l.docs.filter (Text.width a < ·.stop)).map (Span.shift (Text.width w))) := by
  have hextent : Reading.extent P = Text.width a := congrArg Text.width ha
  have hwidth : Reading.extent (cut w) = Text.width w := by rw [Reading.extent, cut_flatten]
  have hdocs : l.docs = docsIn 0 P ++ docsIn (Text.width a) Q := by
    rw [(bare_of_tokenize hl).2, hcut, docsIn_append, Nat.zero_add, hextent]
  obtain ⟨hbefore, hbehind⟩ := filter_parts (f := Span.stop) (n := Text.width a) (A := docsIn 0 P)
    (B := docsIn (Text.width a) Q)
    (fun d hd => by
      have := (bounds_of_mem_docsIn hd).2.2
      omega)
    fun d hd => Nat.lt_of_le_of_lt (bounds_of_mem_docsIn hd).1
      (doc_lt hl (by rw [hdocs]; exact List.mem_append_right _ hd))
  have hmoved := docsIn_shift 0 (Text.width a) (cut w)
  rw [Nat.zero_add] at hmoved
  rw [hdocs, hbefore, hbehind, (bare_of_tokenize hm).2, (bare_of_tokenize hl').2, hcut', docsIn_append,
    docsIn_append, Nat.zero_add, hextent, hwidth, docsIn_shift, hmoved]

/-- A text that stays with itself is set into a source: its tokens and comments stand among those of the
source, which are the same before it and as many bytes on after it. -/
theorem tokenize_inlay (hl : tokenize (a ++ b) = .ok l) (hm : tokenize w = .ok m) (hplace : Inlet l a b)
    (hw : SelfContained w) :
    tokenize (a ++ (w ++ b)) = .ok (l.inlay m (Text.width a) (Text.width w)) := by
  obtain ⟨P, ha, hcut, hcut'⟩ := hplace.exists_cut hl hm hw
  obtain ⟨r, hr, hopened, rfl⟩ := tokenize_eq_ok.mp hm
  obtain ⟨l', hl', hins⟩ := exists_inserted hcut hcut' ⟨hr, hopened⟩ hl
  rw [ha, cut_flatten] at hins
  obtain ⟨hto, hbehind⟩ := hins.tokens_parts hl
  have hlength : (l.tokens.toList.take (tokensIn 0 P).length).length = (tokensIn 0 P).length :=
    List.length_take_of_le (by simpa using hins.le_size)
  have htokens : l'.tokens = (l.inlay ⟨r.tokens, r.docs.reverse⟩ (Text.width a) (Text.width w)).tokens := by
    refine Array.toList_inj.mp (hins.tokens_eq.trans ?_)
    dsimp only [inlay]
    rw [hto, hbehind, hlength]
  have hdocs := docs_inlaid hl hm hl' hcut hcut' ha
  exact hl'.trans (congrArg Except.ok (congrArg₂ TokenSequence.mk htokens hdocs))

/-- A class up to its only method. -/
def sampleStart : Text := "<?php\nclass A \x7b\n"

/-- The rest of it. -/
def sampleRest : Text := "  /** f */ function f() \x7b return ['x']; \x7d\n\x7d\n"

theorem tokenize_inlay_attribute : ∃ l m, tokenize (sampleStart ++ sampleRest) = .ok l ∧
    tokenize "/** g */ #[T('y')]\n" = .ok m ∧ l.tokens.size = 15 ∧ m.tokens.size = 6 ∧
    Inlet l sampleStart sampleRest ∧ SelfContained "/** g */ #[T('y')]\n" ∧
    tokenize (sampleStart ++ ("/** g */ #[T('y')]\n" ++ sampleRest)) =
      .ok (l.inlay m (Text.width sampleStart) (Text.width "/** g */ #[T('y')]\n")) := by
  generalize htext : ("/** g */ #[T('y')]\n" : Text) = w
  have h : ((tokenize (sampleStart ++ sampleRest)).toOption.any fun l =>
      (tokenize w).toOption.any fun m => decide (l.tokens.size = 15 ∧ m.tokens.size = 6 ∧
        Inlet l sampleStart sampleRest ∧ SelfContained w)) = true := by
    rw [← htext]
    decide +kernel
  obtain ⟨l, hread, h⟩ := (Option.any_eq_true _ _).mp h
  obtain ⟨m, hread', h⟩ := (Option.any_eq_true _ _).mp h
  obtain ⟨hsize, hsize', hplace, hw⟩ := of_decide_eq_true h
  have hl := eq_ok_of_toOption hread
  have hm := eq_ok_of_toOption hread'
  exact ⟨l, m, hl, hm, hsize, hsize', hplace, hw, tokenize_inlay hl hm hplace hw⟩

end Crosslink.Source
