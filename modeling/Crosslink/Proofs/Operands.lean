import Crosslink.Source.Expression
import Crosslink.Proofs.Cutting

/-!
# The words of an argument

An argument that can be read is, cut into pieces, a short list of words with blanks between them:
quoted texts, names, double colons, dots and perhaps the colon of a label. None of them opens a
bracket, so such an argument can be put into a list, or taken out of one, without any other bracket
being paired anew.

* §1 `Cuts`, a text cut before another.
* §2 What the readers of arguments take from the front of a text.
* §3 `Written`, the words an argument is written with.
* §4 `exists_words`, the words an argument that is read is cut into.
-/

namespace Crosslink.Source

/-! ## 1. Cutting before a text -/

/-- Before `t`, the text `a` is cut into the pieces `P`. -/
def Cuts (a : Text) (P : List Piece) (t : Text) : Prop := cutCode (a ++ t) = P ++ cutCode t

variable {a b t : Text} {P Q : List Piece}

theorem Cuts.nil : Cuts [] [] t := rfl

theorem Cuts.append (ha : Cuts a P (b ++ t)) (hb : Cuts b Q t) : Cuts (a ++ b) (P ++ Q) t := by
  unfold Cuts at ha hb ⊢
  rw [List.append_assoc, ha, hb, List.append_assoc]

theorem Solid.cuts (h : Solid a P) : Cuts a P t := h t

theorem Cuts.of_measure {c : Char} {w : Text} {kind : PieceKind}
    (h : measure c (w ++ t) = (kind, w.length)) : Cuts (c :: w) [⟨kind, c :: w⟩] t := by
  unfold Cuts
  rw [List.cons_append, cutCode_cons, h, List.take_left, List.drop_left]
  rfl

/-- A text that no name goes on with. -/
def Breaks (t : Text) : Prop := ∀ c, t.head? = some c → isNameChar c = false ∧ c ≠ '\\'

theorem Breaks.nil : Breaks [] := by simp [Breaks]

theorem Breaks.cons {c : Char} (h : isNameChar c = false) (h' : c ≠ '\\') : Breaks (c :: t) := by
  intro d hd
  obtain rfl : c = d := by simpa using hd
  exact ⟨h, h'⟩

/-- The pieces of blanks. -/
def blanks (g : Text) : List Piece := g.map fun c => ⟨.blank, [c]⟩

theorem solid_blanks {g : Text} (h : ∀ c ∈ g, isAsciiBlank c) : Solid g (blanks g) := by
  induction g with
  | nil => exact Solid.nil
  | cons c g ih =>
    have hc : stopKind c = some .blank := by simp [stopKind, h c (by simp)]
    exact (solid_stop hc).append (ih fun d hd => h d (by simp [hd]))

/-! ## 2. What the readers take -/

theorem isNameChar_of_isIdentChar {c : Char} (h : Expression.isIdentChar c = true) :
    isNameChar c = true := by
  have hranges : ∀ r ∈ wordRanges, 0x80 ≤ r.1 := by decide +kernel
  simp only [Expression.isIdentChar, isAlphanumeric, Bool.or_eq_true, decide_eq_true_eq,
    List.any_eq_true, Bool.and_eq_true, Char.isAlphanum] at h
  simp only [isNameChar, isNameStart, Bool.or_eq_true, decide_eq_true_eq]
  obtain ((h | h) | ⟨r, hr, hlo, -⟩) | h := h
  · exact .inl (.inl (.inl h))
  · exact .inr h
  · exact .inl (.inr (Nat.le_trans (hranges r hr) hlo))
  · exact .inl (.inl (.inr h))

theorem isAsciiBlank_of_isGap {c : Char} (h : Expression.isGap c = true) :
    isAsciiBlank c = true := by
  simp only [Expression.isGap, Bool.or_eq_true, decide_eq_true_eq] at h
  obtain ((rfl | rfl) | rfl) | rfl := h <;> rfl

theorem breaks_of_isGap {c : Char} (h : Expression.isGap c = true) : Breaks (c :: t) := by
  simp only [Expression.isGap, Bool.or_eq_true, decide_eq_true_eq] at h
  obtain ((rfl | rfl) | rfl) | rfl := h <;> exact .cons (by decide) (by decide)

/-- A gap is what stands before what is left when it is skipped. -/
theorem exists_gap (text : Text) :
    ∃ g, text = g ++ Expression.skipGap text ∧ (∀ c ∈ g, Expression.isGap c = true) := by
  refine ⟨text.takeWhile Expression.isGap, List.takeWhile_append_dropWhile.symm, ?_⟩
  intro c hc
  exact List.all_eq_true.mp List.all_takeWhile c hc

theorem solid_gap {g : Text} (h : ∀ c ∈ g, Expression.isGap c = true) : Solid g (blanks g) :=
  solid_blanks fun c hc => isAsciiBlank_of_isGap (h c hc)

theorem Breaks.gap {g : Text} (h : ∀ c ∈ g, Expression.isGap c = true) (ht : Breaks t) :
    Breaks (g ++ t) := by
  cases g with
  | nil => exact ht
  | cons c g => exact breaks_of_isGap (h c (by simp))

/-- The texts that can be all of a name but its first character. -/
def Continues (n : Text) : Prop := qualifiedLength n = n.length

theorem qualifiedLength_append_chars {i : Text} (hi : ∀ c ∈ i, isNameChar c = true) (m : Text) :
    qualifiedLength (i ++ m) = i.length + qualifiedLength m := by
  induction i with
  | nil => simp
  | cons c i ih =>
    rw [List.cons_append, qualifiedLength, hi c (by simp), Bool.true_or, if_pos rfl,
      ih fun d hd => hi d (by simp [hd]), List.length_cons]
    omega

theorem Continues.append_chars {i m : Text} (hi : ∀ c ∈ i, isNameChar c = true)
    (hm : Continues m) : Continues (i ++ m) := by
  unfold Continues at hm ⊢
  rw [qualifiedLength_append_chars hi, hm, List.length_append]

theorem qualifiedLength_of_breaks (ht : Breaks t) : qualifiedLength t = 0 := by
  cases t with
  | nil => rfl
  | cons c t =>
    obtain ⟨hname, hslash⟩ := ht c rfl
    simp [qualifiedLength, hname, hslash]

theorem Continues.qualifiedLength_append {n : Text} (hn : Continues n) (ht : Breaks t) :
    qualifiedLength (n ++ t) = n.length := by
  induction n with
  | nil => exact qualifiedLength_of_breaks ht
  | cons c n ih =>
    unfold Continues at hn
    rw [qualifiedLength] at hn
    split at hn
    · rename_i hc
      have hstart : startsName n = true → startsName (n ++ t) = true := by
        intro h
        cases n with
        | nil => simp [startsName] at h
        | cons d n => exact h
      have hc' : (isNameChar c || (decide (c = '\\') && startsName (n ++ t))) = true := by
        simp only [Bool.or_eq_true, Bool.and_eq_true] at hc ⊢
        exact hc.imp id fun h => ⟨h.1, hstart h.2⟩
      rw [List.cons_append, qualifiedLength, if_pos hc', ih, List.length_cons]
      unfold Continues
      simpa using hn
    · simp at hn

theorem measure_name {c : Char} (hc : isNameStart c = true) (cs : Text) :
    measure c cs = (.token .name, qualifiedLength cs) := by
  have hne : ∀ d, isNameStart d = false → c ≠ d := by
    rintro d hd rfl
    exact absurd hc (by simp [hd])
  have hblank : isAsciiBlank c = false := by
    simp only [isAsciiBlank, hne ' ' (by decide), hne '\t' (by decide), hne '\n' (by decide),
      hne '\x0c' (by decide), hne '\r' (by decide), decide_false, Bool.or_self]
  simp only [measure, hblank, hne '?' (by decide), hne '#' (by decide), hne '/' (by decide),
    hne '\'' (by decide), hne '"' (by decide), hne '\x60' (by decide), hne '<' (by decide),
    hne '$' (by decide), hne '\\' (by decide), hc, decide_false, Bool.false_and, Bool.false_eq_true,
    if_false, Bool.or_self, if_true]

/-- A name is one piece before a text that it does not go on with. -/
theorem cuts_name {c : Char} {n : Text} (hc : isNameStart c = true) (hn : Continues n)
    (ht : Breaks t) : Cuts (c :: n) [⟨.token .name, c :: n⟩] t := by
  refine .of_measure ?_
  rw [measure_name hc, hn.qualifiedLength_append ht]

/-- A name and the parenthesis after it. -/
theorem solid_opening {c : Char} {n : Text} (hc : isNameStart c = true) (hn : Continues n) :
    Solid (c :: n ++ ['(']) [⟨.token .name, c :: n⟩, ⟨.token .openParen, ['(']⟩] := by
  have hcuts : Cuts (c :: n) [⟨.token .name, c :: n⟩] ['('] :=
    cuts_name hc hn (.cons (by decide) (by decide))
  exact Solid.of_boundary (P := [_]) (w := []) (b := []) (by simp) hcuts (by decide) (by decide)
    (solid_stop rfl)

/-- What a text is cut into before a closing parenthesis is what it is cut into whatever comes after. -/
theorem solid_of_closed {a : Text} {F : List Piece} {b : Text}
    (ha : F.flatMap Piece.text = a) (h : cutCode (a ++ ')' :: b) = F ++ cutCode (')' :: b)) :
    Solid (a ++ [')']) (F ++ [⟨.token .closeParen, [')']⟩]) :=
  Solid.of_boundary (w := []) ha h (by decide) (by decide) (solid_stop rfl)

theorem cuts_rooted {c : Char} {n : Text} (hc : isNameStart c = true) (hn : Continues n)
    (ht : Breaks t) : Cuts ('\\' :: c :: n) [⟨.token .name, '\\' :: c :: n⟩] t := by
  refine .of_measure ?_
  have hstart : startsName (c :: n ++ t) = true := hc
  have hlen : qualifiedLength (c :: n ++ t) = n.length + 1 := by
    rw [List.cons_append, qualifiedLength, hn.qualifiedLength_append ht]
    simp [isNameChar, hc]
  rw [List.cons_append] at hstart hlen ⊢
  simp [measure, isAsciiBlank, hstart, hlen]

theorem readIdent_eq_some {text ident rest : Text}
    (h : Expression.readIdent text = some (ident, rest)) :
    text = ident ++ rest ∧ ∃ c n, ident = c :: n ∧ isNameStart c = true ∧
      ∀ d ∈ n, isNameChar d = true := by
  unfold Expression.readIdent at h
  have htext := List.takeWhile_append_dropWhile (p := Expression.isIdentChar) (l := text)
  have hall : ∀ c ∈ text.takeWhile Expression.isIdentChar, isNameChar c = true := fun c hc =>
    isNameChar_of_isIdentChar (List.all_eq_true.mp List.all_takeWhile c hc)
  split at h
  · cases h
  · rename_i c n hident
    split at h
    · cases h
    · rename_i hdigit
      simp only [Option.some.injEq, Prod.mk.injEq] at h
      obtain ⟨rfl, rfl⟩ := h
      rw [hident] at htext hall
      refine ⟨htext.symm, c, n, rfl, ?_, fun d hd => hall d (by simp [hd])⟩
      have hc := hall c (by simp)
      simp only [isNameChar, Bool.or_eq_true] at hc
      exact hc.resolve_right hdigit

theorem readSegments_eq {text more rest : Text}
    (h : Expression.readSegments text = (more, rest)) :
    text = more ++ rest ∧ Continues more := by
  fun_induction Expression.readSegments text generalizing more with
  | case1 cs ident rest' hread more' rest'' hmore ih =>
    simp only [Prod.mk.injEq] at h
    obtain ⟨rfl, rfl⟩ := h
    obtain ⟨rfl, c, n, rfl, hc, hn⟩ := readIdent_eq_some hread
    obtain ⟨rfl, hcont⟩ := ih hmore
    refine ⟨by simp, ?_⟩
    have hlen : Continues (c :: n ++ more') := by
      refine hcont.append_chars fun d hd => ?_
      obtain rfl | hd := List.mem_cons.mp hd
      · simp [isNameChar, hc]
      · exact hn d hd
    unfold Continues at hlen ⊢
    simp only [List.cons_append] at hlen ⊢
    rw [qualifiedLength]
    simp [startsName, hc, hlen]
  | case2 cs hread =>
    simp only [Prod.mk.injEq] at h
    obtain ⟨rfl, rfl⟩ := h
    exact ⟨rfl, rfl⟩
  | case3 text hne =>
    simp only [Prod.mk.injEq] at h
    obtain ⟨rfl, rfl⟩ := h
    exact ⟨rfl, rfl⟩

/-- What the readers of quoted texts take ends with the quote that ends the piece. -/
theorem readSingle_eq_some {text value rest : Text}
    (h : Expression.readSingle text = some (value, rest)) :
    ∃ q, text = q ++ rest ∧ ∀ x, quotedLength '\'' (q ++ x) = some q.length := by
  fun_induction Expression.readSingle text generalizing value with
  | case1 => cases h
  | case2 cs ih =>
    obtain ⟨⟨v, r⟩, hread, hr⟩ := Option.map_eq_some_iff.mp h
    simp only [Prod.mk.injEq] at hr
    obtain ⟨-, rfl⟩ := hr
    obtain ⟨q, rfl, hq⟩ := ih hread
    exact ⟨'\\' :: '\\' :: q, rfl, fun x => by simp [quotedLength, hq x]⟩
  | case3 cs ih =>
    obtain ⟨⟨v, r⟩, hread, hr⟩ := Option.map_eq_some_iff.mp h
    simp only [Prod.mk.injEq] at hr
    obtain ⟨-, rfl⟩ := hr
    obtain ⟨q, rfl, hq⟩ := ih hread
    exact ⟨'\\' :: '\'' :: q, rfl, fun x => by simp [quotedLength, hq x]⟩
  | case4 cs =>
    simp only [Option.some.injEq, Prod.mk.injEq] at h
    obtain ⟨-, rfl⟩ := h
    exact ⟨['\''], rfl, fun x => by simp [quotedLength]⟩
  | case5 c cs hne hne' hne'' ih =>
    obtain ⟨⟨v, r⟩, hread, hr⟩ := Option.map_eq_some_iff.mp h
    simp only [Prod.mk.injEq] at hr
    obtain ⟨-, rfl⟩ := hr
    obtain ⟨q, rfl, hq⟩ := ih hread
    refine ⟨c :: q, rfl, fun x => ?_⟩
    by_cases hc : c = '\\'
    · -- a backslash that stands for itself takes the next character along, which is no quote
      subst hc
      cases q with
      | nil =>
        have hx := hq []
        simp [quotedLength] at hx
      | cons d q =>
        have hd : d ≠ '\\' := fun hd => hne (q ++ r) rfl (by rw [hd]; rfl)
        have hd' : d ≠ '\'' := fun hd => hne' (q ++ r) rfl (by rw [hd]; rfl)
        have hx := hq x
        rw [List.cons_append, quotedLength_cons hd, if_neg hd'] at hx
        obtain ⟨m, hm, hlen⟩ := Option.map_eq_some_iff.mp hx
        simp only [List.length_cons] at hlen
        simp [quotedLength, hm]
        omega
    · have hc' : c ≠ '\'' := fun hc => hne'' hc
      rw [List.cons_append, quotedLength_cons hc, if_neg hc', hq x]
      rfl

theorem readDouble_eq_some {text value rest : Text}
    (h : Expression.readDouble text = some (value, rest)) :
    ∃ q, text = q ++ rest ∧ ∀ x, quotedLength '"' (q ++ x) = some q.length := by
  fun_induction Expression.readDouble text generalizing value with
  | case1 => cases h
  | case2 => cases h
  | case3 c cs ih =>
    obtain ⟨⟨v, r⟩, hread, hr⟩ := Option.map_eq_some_iff.mp h
    simp only [Prod.mk.injEq] at hr
    obtain ⟨-, rfl⟩ := hr
    obtain ⟨q, rfl, hq⟩ := ih hread
    exact ⟨'\\' :: c :: q, rfl, fun x => by simp [quotedLength, hq x]⟩
  | case4 cs =>
    simp only [Option.some.injEq, Prod.mk.injEq] at h
    obtain ⟨-, rfl⟩ := h
    exact ⟨['"'], rfl, fun x => by simp [quotedLength]⟩
  | case5 => cases h
  | case6 c cs hne hne' hne'' hne''' ih =>
    obtain ⟨⟨v, r⟩, hread, hr⟩ := Option.map_eq_some_iff.mp h
    simp only [Prod.mk.injEq] at hr
    obtain ⟨-, rfl⟩ := hr
    obtain ⟨q, rfl, hq⟩ := ih hread
    refine ⟨c :: q, rfl, fun x => ?_⟩
    have hc : c ≠ '\\' := by
      rintro rfl
      cases hqr : q ++ r with
      | nil => exact hne rfl hqr
      | cons d s => exact hne' d s rfl hqr
    rw [List.cons_append, quotedLength_cons hc, if_neg fun hc => hne'' hc, hq x]
    rfl

/-! ## 3. Words -/

/-- A token without its place. -/
abbrev Word := TokenKind × Text

/-- The word a piece is, if it is a token. -/
def wordOf (p : Piece) : Option Word :=
  match p.kind with
  | .token kind => some (kind, p.text)
  | _ => none

/-- Pieces that are these words with blanks around them. -/
structure Spells (ps : List Piece) (ws : List Word) : Prop where
  words : ps.filterMap wordOf = ws
  blank : ∀ p ∈ ps, p.kind = .blank ∨ ∃ kind, p.kind = .token kind

theorem Spells.nil : Spells [] [] := ⟨rfl, by simp⟩

theorem Spells.append {ws vs : List Word} (hP : Spells P ws) (hQ : Spells Q vs) :
    Spells (P ++ Q) (ws ++ vs) where
  words := by rw [List.filterMap_append, hP.words, hQ.words]
  blank p hp := (List.mem_append.mp hp).elim (hP.blank p) (hQ.blank p)

theorem Spells.blanks (g : Text) : Spells (blanks g) [] where
  words := by
    refine List.filterMap_eq_nil_iff.mpr fun p hp => ?_
    obtain ⟨c, -, rfl⟩ := List.mem_map.mp hp
    rfl
  blank p hp := by
    obtain ⟨c, -, rfl⟩ := List.mem_map.mp hp
    exact .inl rfl

theorem Spells.word (kind : TokenKind) (text : Text) :
    Spells [⟨.token kind, text⟩] [(kind, text)] where
  words := rfl
  blank p hp := by
    obtain rfl := List.mem_singleton.mp hp
    exact .inr ⟨kind, rfl⟩

/-- The words with which operands are written, dots between them. -/
inductive Atom.Written : List Atom → List Word → Prop
  | literal (value quoted : Text) : Written [.literal value] [(.string, quoted)]
  | constant (name word : Text) (h : Text.sameLetters word "class" = true) :
      Written [.classConstant name] [(.name, name), (.doubleColon, [':', ':']), (.name, word)]
  | join {xs ys : List Atom} {ws vs : List Word} (left : Written xs ws) (right : Written ys vs) :
      Written (xs ++ ys) (ws ++ (.dot, ['.']) :: vs)

/-- The words with which an argument is written. -/
inductive Expression.Written : Expression → List Word → Prop
  | bare {atoms : List Atom} {ws : List Word} (h : Atom.Written atoms ws) :
      Written ⟨none, atoms⟩ ws
  | labelled {atoms : List Atom} {ws : List Word} (label : Text) (h : Atom.Written atoms ws) :
      Written ⟨some label, atoms⟩ ((.name, label) :: (.colon, [':']) :: ws)

/-- The kinds of the words of an argument. -/
def operandKinds : List TokenKind := [.name, .string, .doubleColon, .dot, .colon]

theorem Atom.Written.kinds {atoms : List Atom} {ws : List Word} (h : Atom.Written atoms ws) :
    ∀ w ∈ ws, w.1 ∈ operandKinds := by
  induction h with
  | literal => simp [operandKinds]
  | constant => simp [operandKinds]
  | join left right ihl ihr =>
    intro w hw
    obtain hw | hw := List.mem_append.mp hw
    · exact ihl w hw
    · obtain rfl | hw := List.mem_cons.mp hw
      · simp [operandKinds]
      · exact ihr w hw

theorem Expression.Written.kinds {e : Expression} {ws : List Word} (h : e.Written ws) :
    ∀ w ∈ ws, w.1 ∈ operandKinds := by
  cases h with
  | bare h => exact h.kinds
  | labelled label h =>
    intro w hw
    obtain rfl | hw := List.mem_cons.mp hw
    · simp [operandKinds]
    · obtain rfl | hw := List.mem_cons.mp hw
      · simp [operandKinds]
      · exact h.kinds w hw

theorem Atom.Written.ne_nil {atoms : List Atom} {ws : List Word} (h : Atom.Written atoms ws) :
    ws ≠ [] := by
  cases h <;> simp

theorem Expression.Written.ne_nil {e : Expression} {ws : List Word} (h : e.Written ws) :
    ws ≠ [] := by
  cases h with
  | bare h => exact h.ne_nil
  | labelled => simp

/-! ## 4. The words of an argument that is read -/

theorem cuts_ident {i : Text} (hi : ∃ c n, i = c :: n ∧ isNameStart c = true ∧
    ∀ d ∈ n, isNameChar d = true) (ht : Breaks t) : Cuts i [⟨.token .name, i⟩] t := by
  obtain ⟨c, n, rfl, hc, hn⟩ := hi
  have hcont : Continues (n ++ []) := Continues.append_chars hn rfl
  rw [List.append_nil] at hcont
  exact cuts_name hc hcont ht

theorem solid_doubleColon : Solid [':', ':'] [⟨.token .doubleColon, [':', ':']⟩] :=
  solid_of_measure (w := [':']) fun _ => rfl

/-- A class constant is a name, a double colon and the word `class`. -/
theorem cuts_constant {text name rest : Text}
    (h : Expression.readConstant text = some (name, rest)) (ht : Breaks (rest ++ t)) :
    ∃ a ps word, text = a ++ rest ∧ Cuts a ps (rest ++ t) ∧ Text.sameLetters word "class" = true ∧
      Spells ps [(.name, name), (.doubleColon, [':', ':']), (.name, word)] := by
  unfold Expression.readConstant at h
  split at h
  rename_i lead body hpair
  obtain ⟨⟨first, text₁⟩, hfirst, h₁⟩ := Option.bind_eq_some_iff.mp h
  simp only at h₁
  obtain ⟨more, text₂, hmore⟩ : ∃ more text₂, Expression.readSegments text₁ = (more, text₂) :=
    ⟨_, _, rfl⟩
  simp only [hmore] at h₁
  split at h₁
  · rename_i text₃ hcolons
    obtain ⟨⟨word, text₄⟩, hword, h₂⟩ := Option.bind_eq_some_iff.mp h₁
    simp only at h₂
    split at h₂
    · rename_i hclass
      simp only [Option.some.injEq, Prod.mk.injEq] at h₂
      obtain ⟨rfl, rfl⟩ := h₂
      obtain ⟨rfl, c, n, rfl, hc, hn⟩ := readIdent_eq_some hfirst
      obtain ⟨rfl, hcont⟩ := readSegments_eq hmore
      obtain ⟨hword, hident⟩ := readIdent_eq_some hword
      obtain ⟨g₁, hg₁, hgap₁⟩ := exists_gap text₂
      obtain ⟨g₂, hg₂, hgap₂⟩ := exists_gap text₃
      rw [hcolons, hg₂, hword] at hg₁
      have hname : ∀ x, Breaks x → Cuts (lead ++ c :: n ++ more)
          [⟨.token .name, lead ++ c :: n ++ more⟩] x := by
        have hcont' : Continues (n ++ more) := Continues.append_chars hn hcont
        intro x hx
        split at hpair
        · obtain ⟨rfl, -⟩ := Prod.mk.inj hpair
          exact cuts_rooted hc hcont' hx
        · obtain ⟨rfl, -⟩ := Prod.mk.inj hpair
          exact cuts_name hc hcont' hx
      have htext : text = lead ++ (c :: n ++ (more ++ text₂)) := by
        split at hpair
        · obtain ⟨rfl, rfl⟩ := Prod.mk.inj hpair
          rfl
        · obtain ⟨rfl, rfl⟩ := Prod.mk.inj hpair
          rfl
      have hbreaks : Breaks (g₁ ++ ([':', ':'] ++ (g₂ ++ word)) ++ (text₄ ++ t)) := by
        rw [List.append_assoc]
        exact .gap hgap₁ (.cons (by decide) (by decide))
      have hcuts := (hname _ hbreaks).append
        ((solid_gap hgap₁).cuts.append
          (solid_doubleColon.cuts.append ((solid_gap hgap₂).cuts.append (cuts_ident hident ht))))
      have hspells := (Spells.word .name (lead ++ c :: n ++ more)).append ((Spells.blanks g₁).append
        ((Spells.word .doubleColon [':', ':']).append
          ((Spells.blanks g₂).append (Spells.word .name word))))
      refine ⟨_, _, word, ?_, hcuts, hclass, hspells⟩
      rw [htext, hg₁]
      simp
    · cases h₂
  · cases h₁

theorem solid_single {q : Text} (hq : ∀ x, quotedLength '\'' (q ++ x) = some q.length) :
    Solid ('\'' :: q) [⟨.token .string, '\'' :: q⟩] :=
  solid_of_measure fun x => by simp [measure, isAsciiBlank, hq x]

theorem solid_double {q : Text} (hq : ∀ x, quotedLength '"' (q ++ x) = some q.length) :
    Solid ('"' :: q) [⟨.token .string, '"' :: q⟩] :=
  solid_of_measure fun x => by simp [measure, isAsciiBlank, hq x]

theorem cuts_atom {text rest : Text} {atom : Atom} (h : Expression.readAtom text = some (atom, rest))
    (ht : Breaks (rest ++ t)) :
    ∃ a ps ws, text = a ++ rest ∧ Cuts a ps (rest ++ t) ∧ Atom.Written [atom] ws ∧ Spells ps ws := by
  unfold Expression.readAtom at h
  split at h
  · obtain ⟨⟨value, r⟩, hread, hr⟩ := Option.map_eq_some_iff.mp h
    simp only [Prod.mk.injEq] at hr
    obtain ⟨rfl, rfl⟩ := hr
    obtain ⟨q, rfl, hq⟩ := readSingle_eq_some hread
    exact ⟨_, _, _, rfl, (solid_single hq).cuts, .literal value _, .word _ _⟩
  · obtain ⟨⟨value, r⟩, hread, hr⟩ := Option.map_eq_some_iff.mp h
    simp only [Prod.mk.injEq] at hr
    obtain ⟨rfl, rfl⟩ := hr
    obtain ⟨q, rfl, hq⟩ := readDouble_eq_some hread
    exact ⟨_, _, _, rfl, (solid_double hq).cuts, .literal value _, .word _ _⟩
  · obtain ⟨⟨name, r⟩, hread, hr⟩ := Option.map_eq_some_iff.mp h
    simp only [Prod.mk.injEq] at hr
    obtain ⟨rfl, rfl⟩ := hr
    obtain ⟨a, ps, word, htext, hcuts, hword, hspells⟩ := cuts_constant hread ht
    exact ⟨a, ps, _, htext, hcuts, .constant name word hword, hspells⟩

/-- An operand begins with a quote, a backslash or a character of an identifier. -/
theorem head_of_readAtom {text rest : Text} {atom : Atom}
    (h : Expression.readAtom text = some (atom, rest)) :
    ∃ c cs, text = c :: cs ∧ (Expression.isIdentChar c = true ∨ c ∈ ['\'', '"', '\\']) := by
  unfold Expression.readAtom at h
  split at h
  · exact ⟨_, _, rfl, .inr (by simp)⟩
  · exact ⟨_, _, rfl, .inr (by simp)⟩
  · obtain ⟨⟨name, r⟩, hread, -⟩ := Option.map_eq_some_iff.mp h
    unfold Expression.readConstant at hread
    split at hread
    rename_i lead body hpair
    obtain ⟨⟨first, text₁⟩, hfirst, -⟩ := Option.bind_eq_some_iff.mp hread
    split at hpair
    · exact ⟨_, _, rfl, .inr (by simp)⟩
    · obtain ⟨rfl, rfl⟩ := Prod.mk.inj hpair
      cases text with
      | nil => simp [Expression.readIdent] at hfirst
      | cons c cs =>
        refine ⟨c, cs, rfl, .inl ?_⟩
        by_cases hc : Expression.isIdentChar c = true
        · exact hc
        · simp [Expression.readIdent, hc] at hfirst

theorem measure_dot {t : Text} (h : t.head? ≠ some '.') (h' : t.head? ≠ some '=') :
    measure '.' t = (.token .dot, 0) := by
  simp [measure, isAsciiBlank, isNameStart, h, h']

theorem measure_colon {t : Text} (h : t.head? ≠ some ':') :
    measure ':' t = (.token .colon, 0) := by
  simp [measure, isAsciiBlank, isNameStart, h]

theorem head_of_readAtoms {fuel : Nat} {text rest : Text} {atoms : List Atom}
    (h : Expression.readAtoms fuel text = some (atoms, rest)) :
    ∃ c cs, text = c :: cs ∧ (Expression.isIdentChar c = true ∨ c ∈ ['\'', '"', '\\']) := by
  cases fuel with
  | zero => cases h
  | succ fuel =>
    unfold Expression.readAtoms at h
    obtain ⟨⟨atom, text₁⟩, hatom, -⟩ := Option.bind_eq_some_iff.mp h
    exact head_of_readAtom hatom

/-- What operands begin with, blanks before them or not, is none of the characters that go on with a
dot or a colon. -/
theorem head_ne_of_readAtoms {fuel : Nat} {g text rest : Text} {atoms : List Atom}
    (h : Expression.readAtoms fuel text = some (atoms, rest))
    (hg : ∀ c ∈ g, Expression.isGap c = true) {d : Char} (hd : d ∈ ['.', '=', ':']) :
    (g ++ text ++ t).head? ≠ some d := by
  obtain ⟨c, cs, rfl, hc⟩ := head_of_readAtoms h
  cases g with
  | nil =>
    intro he
    obtain rfl : c = d := by simpa using he
    simp only [List.mem_cons, List.not_mem_nil, or_false] at hd
    obtain rfl | rfl | rfl := hd <;> revert hc <;> decide +kernel
  | cons e g =>
    intro he
    obtain rfl : e = d := by simpa using he
    have hgap := hg e (by simp)
    simp only [List.mem_cons, List.not_mem_nil, or_false] at hd
    obtain rfl | rfl | rfl := hd <;> revert hgap <;> decide

/-- Operands that are read to the end of a text. -/
theorem cuts_atoms {fuel : Nat} {text rest : Text} {atoms : List Atom}
    (h : Expression.readAtoms fuel text = some (atoms, rest)) (hrest : Expression.skipGap rest = [])
    (ht : Breaks t) :
    ∃ ps ws, Cuts text ps t ∧ Atom.Written atoms ws ∧ Spells ps ws := by
  induction fuel generalizing text atoms with
  | zero => cases h
  | succ fuel ih =>
    unfold Expression.readAtoms at h
    obtain ⟨⟨atom, text₁⟩, hatom, h₁⟩ := Option.bind_eq_some_iff.mp h
    simp only at h₁
    have hlast : Expression.skipGap text₁ = [] →
        ∃ ps ws, Cuts text ps t ∧ Atom.Written [atom] ws ∧ Spells ps ws := by
      intro hend
      obtain ⟨g, hg, hgap⟩ := exists_gap text₁
      rw [hend, List.append_nil] at hg
      subst hg
      obtain ⟨a, ps, ws, rfl, hcuts, hwritten, hspells⟩ := cuts_atom hatom (ht.gap hgap)
      refine ⟨_, ws, hcuts.append (solid_gap hgap).cuts, hwritten, ?_⟩
      simpa using hspells.append (Spells.blanks text₁)
    split at h₁
    · rename_i cs hdot
      split at h₁
      · rename_i more rest' hmore
        simp only [Option.some.injEq, Prod.mk.injEq] at h₁
        obtain ⟨rfl, rfl⟩ := h₁
        obtain ⟨ps₂, ws₂, hcuts₂, hwritten₂, hspells₂⟩ := ih hmore
        obtain ⟨g₁, hg₁, hgap₁⟩ := exists_gap text₁
        obtain ⟨g₂, hg₂, hgap₂⟩ := exists_gap cs
        rw [hdot] at hg₁
        have hbreaks : Breaks (text₁ ++ t) := by
          rw [hg₁, List.append_assoc]
          exact .gap hgap₁ (.cons (by decide) (by decide))
        obtain ⟨a, ps₁, ws₁, rfl, hcuts₁, hwritten₁, hspells₁⟩ := cuts_atom hatom hbreaks
        have hcutsdot : Cuts ['.'] [⟨.token .dot, ['.']⟩] (cs ++ t) := by
          rw [hg₂]
          exact .of_measure (w := []) (measure_dot (head_ne_of_readAtoms hmore hgap₂ (by simp))
            (head_ne_of_readAtoms hmore hgap₂ (by simp)))
        have hcuts : Cuts (a ++ (g₁ ++ (['.'] ++ (g₂ ++ Expression.skipGap cs)))) _ t :=
          Cuts.append (by simpa [hg₁, ← hg₂] using hcuts₁) ((solid_gap hgap₁).cuts.append
            (Cuts.append (by simpa [← hg₂] using hcutsdot)
              ((solid_gap hgap₂).cuts.append hcuts₂)))
        have hspells := hspells₁.append ((Spells.blanks g₁).append
          ((Spells.word .dot ['.']).append ((Spells.blanks g₂).append hspells₂)))
        have htext : a ++ text₁ = a ++ (g₁ ++ (['.'] ++ (g₂ ++ Expression.skipGap cs))) := by
          rw [← hg₂, hg₁]
          rfl
        rw [htext]
        refine ⟨_, _, hcuts, hwritten₁.join hwritten₂, ?_⟩
        simpa using hspells
      · simp only [Option.some.injEq, Prod.mk.injEq] at h₁
        obtain ⟨rfl, rfl⟩ := h₁
        rw [hdot] at hrest
        cases hrest
    · simp only [Option.some.injEq, Prod.mk.injEq] at h₁
      obtain ⟨rfl, rfl⟩ := h₁
      exact hlast hrest

theorem cuts_label {text label rest : Text} (h : Expression.readLabel text = some (label, rest))
    {fuel : Nat} {atoms : List Atom} {left : Text}
    (hrest : Expression.readAtoms fuel rest = some (atoms, left)) :
    ∃ a ps, text = a ++ rest ∧ Cuts a ps (rest ++ t) ∧
      Spells ps [(.name, label), (.colon, [':'])] := by
  unfold Expression.readLabel at h
  split at h
  · cases h
  · rename_i ident text₁ hread
    obtain ⟨rfl, hident⟩ := readIdent_eq_some hread
    obtain ⟨g₁, hg₁, hgap₁⟩ := exists_gap text₁
    split at h
    · cases h
    · rename_i cs hne hcolon
      simp only [Option.some.injEq, Prod.mk.injEq] at h
      obtain ⟨rfl, rfl⟩ := h
      obtain ⟨g₂, hg₂, hgap₂⟩ := exists_gap cs
      rw [hcolon] at hg₁
      have hbreaks : Breaks (g₁ ++ ([':'] ++ g₂) ++ (Expression.skipGap cs ++ t)) := by
        rw [List.append_assoc]
        exact .gap hgap₁ (.cons (by decide) (by decide))
      have hcolons : (g₂ ++ Expression.skipGap cs ++ t).head? ≠ some ':' :=
        head_ne_of_readAtoms hrest hgap₂ (by simp)
      have hcutscolon : Cuts [':'] [⟨.token .colon, [':']⟩] (g₂ ++ (Expression.skipGap cs ++ t)) := by
        rw [← List.append_assoc]
        exact .of_measure (w := []) (measure_colon hcolons)
      have hcuts := (cuts_ident hident hbreaks).append ((solid_gap hgap₁).cuts.append
        (hcutscolon.append (solid_gap hgap₂).cuts))
      refine ⟨_, _, ?_, hcuts, ?_⟩
      · rw [hg₁, List.append_assoc, List.append_assoc, List.append_assoc, ← hg₂]
        rfl
      · simpa using (Spells.word .name ident).append ((Spells.blanks g₁).append
          ((Spells.word .colon [':']).append (Spells.blanks g₂)))
    · cases h

/-- An argument that is read is cut into the words it is written with. -/
theorem exists_words {text : Text} {e : Expression} (h : Expression.parse text = .ok e)
    (ht : Breaks t) : ∃ ps ws, Cuts text ps t ∧ e.Written ws ∧ Spells ps ws := by
  obtain ⟨g, hg, hgap⟩ := exists_gap text
  unfold Expression.parse at h
  cases hlabel : Expression.readLabel (Expression.skipGap text) with
  | none =>
    simp only [hlabel] at h
    split at h
    · rename_i atoms rest hatoms
      split at h
      · rename_i hrest
        obtain rfl := Except.ok.inj h
        obtain ⟨ps, ws, hcuts, hwritten, hspells⟩ := cuts_atoms hatoms hrest ht
        rw [hg]
        refine ⟨_, _, (solid_gap hgap).cuts.append hcuts, .bare hwritten, ?_⟩
        simpa using (Spells.blanks g).append hspells
      · cases h
    · cases h
  | some labelled =>
    obtain ⟨label, body⟩ := labelled
    simp only [hlabel] at h
    split at h
    · rename_i atoms rest hatoms
      split at h
      · rename_i hrest
        obtain rfl := Except.ok.inj h
        obtain ⟨ps, ws, hcuts, hwritten, hspells⟩ := cuts_atoms hatoms hrest ht
        obtain ⟨a, ps', htext, hcuts', hspells'⟩ := cuts_label hlabel hatoms
        rw [hg, htext]
        refine ⟨_, _, (solid_gap hgap).cuts.append (hcuts'.append hcuts),
          .labelled label hwritten, ?_⟩
        simpa using (Spells.blanks g).append (hspells'.append hspells)
      · cases h
    · cases h

end Crosslink.Source
