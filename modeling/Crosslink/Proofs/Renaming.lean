import Crosslink.Proofs.Bodies
import Crosslink.Proofs.Crossing
import Crosslink.Proofs.Declaring
import Crosslink.Proofs.Injecting
import Crosslink.Proofs.Margins

/-!
# A name put in the place of another

When the last segment of a name is replaced by another word, a source is cut into the pieces it was cut
into, but for that name, and the brackets pair as they did. A group of attributes is read again, but for the
attribute that has the name.

* §1 `cut_renamed`, the pieces of a source with another name.
* §2 `Renamed` and `exists_renamed`, its tokens.
* §3 `Renamed.parse`, a group of attributes in it.
-/

namespace Crosslink.Source

open TokenSequence

variable {source out lead u v w w' x : Text} {c e : Char} {P Q R : List Piece}

/-! ## §1 Pieces -/

/-- What begins a name, and how far the name goes. -/
theorem measure_of_name {cs : Text} (h : (measure c cs).1 = .token .name) :
    measure c cs = (.token .name, qualifiedLength cs) ∧
      (isNameStart c = true ∨ c = '\\' ∧ startsName cs = true) := by
  revert h
  fun_cases measure c cs <;> intro h <;> grind

theorem measure_rooted {cs : Text} (h : startsName cs = true) :
    measure '\\' cs = (.token .name, qualifiedLength cs) := by
  have hblank : isAsciiBlank '\\' = false := by decide
  simp [measure, hblank, h]

theorem startsName_append (h : startsName w = true) (x : Text) : startsName (w ++ x) = true := by
  cases w with
  | nil => cases h
  | cons c w => exact h

/-- Whatever word the last segment of a name is, the name goes on up to it. -/
theorem qualifiedLength_segment (hv : startsName v = true) (hw : startsName w = true)
    (h : u.length ≤ qualifiedLength (u ++ v)) :
    qualifiedLength (u ++ v) = u.length + qualifiedLength v ∧
      qualifiedLength (u ++ w) = u.length + qualifiedLength w := by
  induction u with
  | nil => simp
  | cons e u ih =>
    have hstart : startsName (u ++ w) = startsName (u ++ v) := by
      cases u with
      | nil => exact hw.trans hv.symm
      | cons f u => rfl
    rw [List.cons_append, qualifiedLength, List.length_cons] at h
    split at h
    · rename_i he
      have hrest := ih (by omega)
      have hnext : ∀ z : Text, startsName z = startsName (u ++ v) →
          qualifiedLength (e :: z) = qualifiedLength z + 1 := fun z hz => by
        rw [qualifiedLength, hz, if_pos he]
      rw [List.cons_append, List.cons_append, hnext _ rfl, hnext _ hstart, hrest.1, hrest.2, List.length_cons]
      omega
    · omega

/-- A name is one piece with another word for its last segment, too. -/
theorem cutCode_segment (hw : startsName w = true) (hw' : startsName w' = true)
    (hchars : ∀ e ∈ w, isNameChar e = true) (hchars' : ∀ e ∈ w', isNameChar e = true)
    (h : cutCode (lead ++ (w ++ x)) = ⟨.token .name, lead ++ w⟩ :: R) :
    cutCode (lead ++ (w' ++ x)) = ⟨.token .name, lead ++ w'⟩ :: R := by
  cases lead with
  | nil =>
    cases w with
    | nil => cases hw
    | cons c n =>
      cases w' with
      | nil => cases hw'
      | cons c' n' =>
        exact FluentChain.cutCode_rename hw hw' (fun e he => hchars e (by simp [he]))
          (fun e he => hchars' e (by simp [he])) h
  | cons e lead =>
    rw [List.cons_append, cutCode_cons] at h
    obtain ⟨hfirst, rfl⟩ := List.cons.inj h
    obtain ⟨hkind, htext⟩ := Piece.mk.inj hfirst
    obtain ⟨hmeasure, hbegin⟩ := measure_of_name hkind
    have htake : _ = lead ++ w := (List.cons.inj htext).2
    rw [hmeasure] at htake ⊢
    dsimp only at htake ⊢
    -- the name ends with its last segment
    have hle : lead.length ≤ qualifiedLength (lead ++ (w ++ x)) := by
      have hlength := congrArg List.length htake
      simp only [List.length_take, List.length_append] at hlength
      omega
    obtain ⟨hold, hnew⟩ := qualifiedLength_segment (startsName_append hw x) (startsName_append hw' x) hle
    rw [qualifiedLength_append_chars hchars] at hold
    rw [qualifiedLength_append_chars hchars'] at hnew
    have hparts : ∀ m : Text, qualifiedLength (lead ++ (m ++ x)) =
        lead.length + (m.length + qualifiedLength x) →
        (lead ++ (m ++ x)).take (qualifiedLength (lead ++ (m ++ x))) =
          lead ++ m ++ x.take (qualifiedLength x) ∧
        (lead ++ (m ++ x)).drop (qualifiedLength (lead ++ (m ++ x))) = x.drop (qualifiedLength x) := by
      intro m hm
      rw [hm, ← List.append_assoc, ← Nat.add_assoc, ← List.length_append, List.take_length_add_append,
        List.drop_length_add_append]
      exact ⟨rfl, rfl⟩
    obtain ⟨htaken, hdropped⟩ := hparts w hold
    obtain ⟨htaken', hdropped'⟩ := hparts w' hnew
    have hnil : x.take (qualifiedLength x) = [] := by
      rw [htaken] at htake
      exact List.append_right_eq_self.mp htake
    have hmeasure' : measure e (lead ++ (w' ++ x)) =
        (.token .name, qualifiedLength (lead ++ (w' ++ x))) := by
      obtain he | ⟨rfl, hstart⟩ := hbegin
      · exact measure_name he _
      · refine measure_rooted ?_
        cases lead with
        | nil => exact startsName_append hw' x
        | cons f lead => exact hstart
    rw [List.cons_append, cutCode_cons, hmeasure']
    dsimp only
    rw [htaken', hdropped', hnil, List.append_nil, hdropped]
    rfl

/-- A name is not told by what stands before it from one with another word for its last segment. -/
theorem alike_of_segment (hlead : lead = [] ∨ lead.getLast? = some '\\')
    (hfirst : ∀ f ∈ lead.head?, isNameStart f = true ∨ f = '\\')
    (hc : c.isAlpha = true ∧ c ∉ outsetChars) (he : e.isAlpha = true ∧ e ∉ outsetChars) (x y : Text) :
    Alike (lead ++ c :: x) (lead ++ e :: y) := by
  have halpha : ∀ a : Char, a.isAlpha = true → isNameStart a = true ∧ isNameChar a = true ∧
      (a.isAlphanum || decide (a = '_')) = true := fun a ha => by
    simp [isNameStart, isNameChar, Char.isAlphanum, ha]
  have hother : ∀ a : Char, a.isAlpha = true → ∀ b : Char, b.isAlpha = false → a ≠ b := by
    rintro a ha b hb rfl
    rw [ha] at hb
    cases hb
  have hcs := halpha c hc.1
  have hes := halpha e he.1
  cases lead with
  | nil =>
    refine alike_of_heads x y hc.2 he.2 (by rw [hcs.2.1, hes.2.1]) (by rw [hcs.2.2, hes.2.2])
      (by rw [hcs.1, hes.1]) fun b hb => ?_
    have hb' : b.isAlpha = false := by
      revert b
      simp
    exact iff_of_false (hother c hc.1 b hb') (hother e he.1 b hb')
  | cons f lead =>
    have hslash := hlead.resolve_left (by simp)
    have hne : f ≠ '<' ∧ f ≠ '-' := by
      obtain hf | rfl := hfirst f rfl
      · constructor <;>
        · rintro rfl
          revert hf
          decide
      · decide
    have hstart : startsName (lead ++ e :: y) = startsName (lead ++ c :: x) := by
      cases lead with
      | nil => exact hes.1.trans hcs.1.symm
      | cons g lead => rfl
    refine ⟨by simp, by simp, by simp, by simp [startsName], ?_, by simp, ?_, ?_, fun w _ => ?_⟩
    · simp only [List.cons_append, List.head?_cons, List.tail_cons, hstart]
      exact id
    · rintro (_ | ⟨a, _ | ⟨b, w⟩⟩) <;> simp [hne.1]
    · rintro (_ | ⟨a, _ | ⟨b, w⟩⟩) <;> simp [hne.2]
    · -- a short lead has its backslash where the tag has a letter
      have hlower : Char.toLower '\\' = '\\' := by decide
      have hhead : (w ++ (f :: lead ++ e :: y)).head? = (w ++ (f :: lead ++ c :: x)).head? := by
        cases w <;> rfl
      have htag : Text.sameLetters ((w ++ (f :: lead ++ e :: y)).take 3) "php" =
          Text.sameLetters ((w ++ (f :: lead ++ c :: x)).take 3) "php" := by
        obtain _ | ⟨a, _ | ⟨b, w⟩⟩ := w
        · obtain _ | ⟨g, _ | ⟨h, lead⟩⟩ := lead
          · obtain rfl : f = '\\' := by simpa using hslash
            simp [Text.sameLetters, Text.lower, hlower]
          · obtain rfl : g = '\\' := by simpa using hslash
            simp [Text.sameLetters, Text.lower, hlower]
          · simp
        · cases lead with
          | nil =>
            obtain rfl : f = '\\' := by simpa using hslash
            simp [Text.sameLetters, Text.lower, hlower]
          | cons g lead => simp
        · cases w <;> simp
      rw [tagLength, tagLength, htag, hhead]

/-- A word that a segment of a name can be, and that does not begin as the word of a tag does. -/
structure IsSegment (w : Text) : Prop where
  spelled : ∃ c n, w = c :: n ∧ c.isAlpha = true ∧ c ∉ outsetChars ∧ ∀ e ∈ n, isNameChar e = true

theorem IsSegment.chars (h : IsSegment w) : ∀ e ∈ w, isNameChar e = true := by
  obtain ⟨c, n, rfl, hc, -, hn⟩ := h.spelled
  exact List.forall_mem_cons.mpr ⟨by simp [isNameChar, isNameStart, hc], hn⟩

theorem IsSegment.starts (h : IsSegment w) : startsName w = true := by
  obtain ⟨c, n, rfl, hc, -, -⟩ := h.spelled
  simp [startsName, isNameStart, hc]

theorem mayFollow_of_heads (p : Piece) (x y : Text) (hc : c ∉ ['/', '*', '\n', '?']) (he : e ∉ ['/', '*']) :
    MayFollow p (c :: x) (e :: y) := by
  simp only [List.mem_cons, List.not_mem_nil, or_false, not_or] at hc he
  refine ⟨fun _ d hd => ?_, fun _ hzero => ?_⟩
  · simp only [List.mem_cons, List.not_mem_nil, or_false] at hd
    obtain rfl | rfl := hd
    · simp [hc.1, he.1]
    · simp [hc.2.1, he.2]
  · rw [lineCommentLength_cons, if_neg] at hzero
    · cases hzero
    · simp [hc.2.2.1, hc.2.2.2]

/-- A name is cut off where it was with another word for its last segment. -/
theorem cut_renamed (hcut : cut source = P ++ ⟨.token .name, lead ++ w⟩ :: Q) (hP : P ≠ [])
    (hlead : lead = [] ∨ lead.getLast? = some '\\') (hw : IsSegment w) (hw' : IsSegment w') :
    cut (P.flatMap Piece.text ++ (lead ++ (w' ++ Q.flatMap Piece.text))) =
      P ++ ⟨.token .name, lead ++ w'⟩ :: Q := by
  have hsource : source = P.flatMap Piece.text ++ (lead ++ (w ++ Q.flatMap Piece.text)) := by
    rw [source_eq hcut]
    simp
  have hcode : cutCode (lead ++ (w ++ Q.flatMap Piece.text)) = ⟨.token .name, lead ++ w⟩ :: Q := by
    rw [cut_suffix hcut hP]
    simp
  have hcode' := cutCode_segment hw.starts hw'.starts hw.chars hw'.chars hcode
  have hfirst : ∀ f ∈ lead.head?, isNameStart f = true ∨ f = '\\' := by
    intro f hf
    cases lead with
    | nil => cases hf
    | cons g lead =>
      obtain rfl := Option.some.inj hf
      rw [List.cons_append, cutCode_cons] at hcode
      exact (measure_of_name (Piece.mk.inj (List.cons.inj hcode).1).1).2.imp_right And.left
  obtain ⟨c, n, rfl, hc, houtset, -⟩ := hw.spelled
  obtain ⟨e, n', rfl, he, houtset', -⟩ := hw'.spelled
  have halike : Alike (lead ++ (c :: n ++ Q.flatMap Piece.text)) (lead ++ (e :: n' ++ Q.flatMap Piece.text)) :=
    alike_of_segment hlead hfirst ⟨hc, houtset⟩ ⟨he, houtset'⟩ _ _
  rw [← hcode']
  refine cut_append halike rfl hP (by rw [← hsource, hcut, hcode]) (fun p _ => ?_) fun htag => ?_
  · have hnot : ∀ d : Char, isNameStart d = true ∨ d = '\\' → d ∉ ['/', '*', '\n', '?'] := by
      have hother : ∀ d ∈ ['/', '*', '\n', '?'], isNameStart d = false ∧ d ≠ '\\' := by
        simp [isNameStart]
      intro d hd hmem
      obtain ⟨hstart, hne⟩ := hother d hmem
      exact hd.elim (fun h => absurd h (by simp [hstart])) hne
    have halpha : ∀ d : Char, d.isAlpha = true → d ∉ ['/', '*', '\n', '?'] := fun d hd =>
      hnot d (.inl (by simp [isNameStart, hd]))
    have hfew : ∀ d : Char, d ∉ ['/', '*', '\n', '?'] → d ∉ ['/', '*'] := fun d hd hmem => hd (by simp_all)
    cases lead with
    | nil => exact mayFollow_of_heads p _ _ (halpha c hc) (hfew e (halpha e he))
    | cons f lead =>
      have hf := hnot f (hfirst f rfl)
      exact mayFollow_of_heads p _ _ hf (hfew f hf)
  · rw [← List.append_assoc] at htag ⊢
    obtain h | h := FluentChain.tag_of_name (by simp) hw'.chars htag
    · exact h.trans (List.prefix_append _ _).isInfix
    · exact h.trans ((List.suffix_append _ _).trans (List.suffix_append _ _)).isInfix

/-! ## §2 Tokens -/

/-- What the pairing of brackets goes by and what it finds. -/
def Token.joint (t : Token) : TokenKind × Option Nat := (t.kind, t.partner)

namespace Reading

variable {r r' a : Reading} {t t' : Token}

/-- Two readings have the same kinds of tokens, with the same partners and the same brackets open. -/
structure Similar (r r' : Reading) : Prop where
  size : r'.tokens.size = r.tokens.size
  joints : ∀ i : Nat, (r'.tokens[i]?).map Token.joint = (r.tokens[i]?).map Token.joint
  opened : r'.opened.map (fun x => (x.1, x.2.kind)) = r.opened.map fun x => (x.1, x.2.kind)

theorem Similar.push (h : Similar r r') (ht : t'.joint = t.joint) : Similar (r.push t) (r'.push t') where
  size := by simp only [Reading.push, Array.size_push, h.size]
  joints i := by
    simp only [Reading.push, Array.getElem?_push, h.size]
    by_cases hi : i = r.tokens.size
    · rw [if_pos hi, if_pos hi, Option.map_some, Option.map_some, ht]
    · rw [if_neg hi, if_neg hi, h.joints]
  opened := h.opened

theorem Similar.adds (h : Similar r r') (hkind : t'.kind = t.kind) (ht : t.partner = none)
    (ht' : t'.partner = none) (ha : Adds r t a) : ∃ a', Adds r' t' a' ∧ Similar a a' := by
  have hjoint : t'.joint = t.joint := by rw [Token.joint, Token.joint, hkind, ht, ht']
  have hpush := h.push hjoint
  cases ha with
  | plain opens closes => exact ⟨_, .plain (hkind ▸ opens) (hkind ▸ closes), hpush⟩
  | opening opens =>
    refine ⟨_, .opening (hkind ▸ opens), hpush.size, hpush.joints, ?_⟩
    simp only [List.map_cons, h.size, hkind, h.opened]
  | @closing openers i o rest opens closes hopened pairs =>
    have hopened' := h.opened
    rw [hopened, List.map_cons] at hopened'
    obtain ⟨⟨i', o'⟩, rest', hx, hx', hrest'⟩ := List.map_eq_cons_iff.mp hopened'
    obtain ⟨rfl, hkind'⟩ := Prod.mk.inj hx'
    refine ⟨_, .closing (hkind ▸ opens) (hkind ▸ closes) hx (by rw [hkind']; exact pairs), ?_, fun j => ?_,
      hrest'⟩
    · simp only [Array.size_push, Array.size_modify, h.size]
    · simp only [Array.getElem?_push, Array.size_modify, Array.getElem?_modify, h.size]
      by_cases hj : j = r.tokens.size
      · simp [hj, Token.joint, hkind]
      · rw [if_neg hj, if_neg hj]
        have hsame := h.joints j
        by_cases hij : i' = j
        · rw [if_pos hij, if_pos hij]
          cases hr : r.tokens[j]? <;> cases hr' : r'.tokens[j]? <;> simp_all [Token.joint]
        · rw [if_neg hij, if_neg hij, hsame]

theorem Similar.take (h : Similar r r') {p p' : Piece} (hkind : p'.kind = p.kind) {offset : Nat}
    (offset' : Nat) (ha : r.take offset p = some a) : ∃ a', r'.take offset' p' = some a' ∧ Similar a a' := by
  unfold Reading.take at ha ⊢
  rw [hkind]
  split at ha
  · cases ha
  · cases ha
    exact ⟨_, rfl, h.size, h.joints, h.opened⟩
  · rename_i kind _
    have hsame : (⟨kind, ⟨offset', offset' + Text.width p'.text⟩, p'.text, none⟩ : Token).kind =
        (⟨kind, ⟨offset, offset + Text.width p.text⟩, p.text, none⟩ : Token).kind := rfl
    obtain ⟨a', ha', hsimilar⟩ := h.adds hsame rfl rfl (token_eq_some.mp ha)
    exact ⟨a', token_eq_some.mpr ha', hsimilar⟩
  · cases ha
    exact ⟨_, rfl, h⟩

/-- Pieces of the same kinds are read alike. -/
theorem Similar.takeAll (h : Similar r r') {ps ps' : List Piece}
    (hkinds : ps'.map Piece.kind = ps.map Piece.kind) {offset : Nat} (offset' : Nat)
    (ha : r.takeAll offset ps = some a) : ∃ a', r'.takeAll offset' ps' = some a' ∧ Similar a a' := by
  induction ps generalizing r r' ps' offset offset' with
  | nil =>
    obtain rfl := List.map_eq_nil_iff.mp hkinds
    cases ha
    exact ⟨r', rfl, h⟩
  | cons p ps ih =>
    obtain ⟨p', ps', rfl, hkind, hrest⟩ := List.map_eq_cons_iff.mp hkinds
    obtain ⟨b, hb, ha⟩ := Option.bind_eq_some_iff.mp ha
    obtain ⟨b', hb', hsimilar⟩ := h.take hkind offset' hb
    obtain ⟨a', ha', hsimilar'⟩ := ih hsimilar hrest (offset' + Text.width p'.text) ha
    exact ⟨a', by rw [Reading.takeAll, hb', Option.bind_some, ha'], hsimilar'⟩

end Reading

/-- Two sources differ in the text of one name, the token `j`, which is `name` in the second and has `k`
bytes more there. -/
structure Renamed (j k : Nat) (name source out : Text) (l l' : TokenSequence) : Prop where
  read : tokenize source = .ok l
  read' : tokenize out = .ok l'
  size : l'.tokens.size = l.tokens.size
  named : ∃ t, l.tokens[j]? = some t ∧ t.kind = .name ∧
    l'.tokens[j]? = some { t with span := ⟨t.span.start, t.span.stop + k⟩, text := name }
  before : Copied id 0 j 0 0 source out l l'
  after : Copied id (j + 1) l.tokens.size 0 k source out l l'
  docs : ∀ t, l.tokens[j]? = some t → DocsMoved t.span.start k source out l.docBetween l'.docBetween

theorem tokensIn_shift (offset k : Nat) (ps : List Piece) :
    tokensIn (offset + k) ps = (tokensIn offset ps).map fun t => { t with span := t.span.shift k } := by
  induction ps generalizing offset with
  | nil => rfl
  | cons p ps ih =>
    rw [tokensIn, tokensIn, List.map_append, ← ih, Nat.add_right_comm offset k]
    refine congrArg (· ++ _) ?_
    unfold tokenAt
    cases p.kind <;> simp [Span.shift, Nat.add_right_comm]

theorem eq_carried {o o' : Option Token} {k : Nat} (i : Nat)
    (hbare : o'.map Token.bare = o.map fun t => { t.bare with span := t.span.shift k })
    (hjoint : o'.map Token.joint = o.map Token.joint) :
    o' = o.map (Token.carried id (fun _ => Span.shift k) i) := by
  cases o with
  | none => cases o' with
    | none => rfl
    | some t' => cases hbare
  | some t => cases o' with
    | none => cases hbare
    | some t' =>
      obtain ⟨-, hspan, htext, -⟩ := Token.mk.inj (Option.some.inj hbare)
      obtain ⟨hkind, hpartner⟩ := Prod.mk.inj (Option.some.inj hjoint)
      obtain ⟨kind', span', text', partner'⟩ := t'
      simp only [Token.bare] at hspan htext hkind hpartner
      subst hspan htext hkind hpartner
      simp [Token.carried]

/-- The tokens around a name, their partners left out. -/
theorem bare_around {m : Text} {l : TokenSequence} (hl : tokenize source = .ok l)
    (hcut : cut source = P ++ ⟨.token .name, m⟩ :: Q) :
    (∀ i, i < countIn P → (l.tokens[i]?).map Token.bare = (tokensIn 0 P)[i]?) ∧
      (l.tokens[countIn P]?).map Token.bare =
        some ⟨.name, ⟨Reading.extent P, Reading.extent P + Text.width m⟩, m, none⟩ ∧
      ∀ q, (l.tokens[countIn P + 1 + q]?).map Token.bare =
        (tokensIn (Reading.extent P + Text.width m) Q)[q]? := by
  have hlist : l.tokens.toList.map Token.bare =
      tokensIn 0 P ++ ⟨.name, ⟨Reading.extent P, Reading.extent P + Text.width m⟩, m, none⟩ ::
        tokensIn (Reading.extent P + Text.width m) Q := by
    rw [(bare_of_tokenize hl).1, hcut, tokensIn_append, Nat.zero_add]
    rfl
  have hat : ∀ i : Nat, (l.tokens[i]?).map Token.bare = (l.tokens.toList.map Token.bare)[i]? := fun i => by
    rw [List.getElem?_map, Array.getElem?_toList]
  have hlength : (tokensIn 0 P).length = countIn P := length_tokensIn 0 P
  refine ⟨fun i hi => ?_, ?_, fun q => ?_⟩
  · rw [hat, hlist, List.getElem?_append_left (by omega)]
  · rw [hat, hlist, List.getElem?_append_right (by omega), hlength, Nat.sub_self, List.getElem?_cons_zero]
  · rw [hat, hlist, List.getElem?_append_right (by omega), hlength,
      show countIn P + 1 + q - countIn P = q + 1 by omega, List.getElem?_cons_succ]

/-- A source with pieces of the same kinds is read, and its brackets pair alike. -/
theorem exists_joints {l : TokenSequence} (hl : tokenize source = .ok l)
    (hkinds : (cut out).map Piece.kind = (cut source).map Piece.kind) :
    ∃ l', tokenize out = .ok l' ∧ l'.tokens.size = l.tokens.size ∧
      ∀ i : Nat, (l'.tokens[i]?).map Token.joint = (l.tokens[i]?).map Token.joint := by
  obtain ⟨r, hr, hnil, rfl⟩ := tokenize_eq_ok.mp hl
  have hempty : Reading.Similar {} {} := ⟨rfl, fun _ => rfl, rfl⟩
  obtain ⟨r', hr', hsimilar⟩ := hempty.takeAll hkinds 0 hr
  have hnil' : r'.opened = [] := by
    have := hsimilar.opened
    rw [hnil] at this
    simpa using this
  exact ⟨_, tokenize_eq_ok.mpr ⟨r', hr', hnil', rfl⟩, hsimilar.size, hsimilar.joints⟩

/-- Before a name the text of two sources is the same, and after it as well. -/
theorem slice_around {n n' : Text} {k : Nat} (hcut : cut source = P ++ ⟨.token .name, n⟩ :: Q)
    (hcut' : cut out = P ++ ⟨.token .name, n'⟩ :: Q) (hk : Text.width n' = Text.width n + k) :
    (∀ s : Span, s.stop ≤ Reading.extent P → s.slice out = s.slice source) ∧
      ∀ s : Span, Reading.extent P + Text.width n ≤ s.start → s.start ≤ s.stop →
        (s.shift k).slice out = s.slice source := by
  have hsource : source = P.flatMap Piece.text ++ (n ++ Q.flatMap Piece.text) := by
    rw [source_eq hcut]
    simp
  have hout : out = P.flatMap Piece.text ++ (n' ++ Q.flatMap Piece.text) := by
    rw [source_eq hcut']
    simp
  refine ⟨fun s hs => ?_, fun s hs hs' => ?_⟩
  · rw [hsource, hout, Span.slice, Span.slice, Text.slice_append_of_le hs, Text.slice_append_of_le hs]
  · obtain ⟨p, hp⟩ := Nat.exists_eq_add_of_le hs
    obtain ⟨q, hq⟩ := Nat.exists_eq_add_of_le (Nat.le_trans hs hs')
    have hold := Text.slice_width_add (P.flatMap Piece.text ++ n) (Q.flatMap Piece.text) p q
    have hnew := Text.slice_width_add (P.flatMap Piece.text ++ n') (Q.flatMap Piece.text) p q
    rw [List.append_assoc, ← hsource, Text.width_append] at hold
    rw [List.append_assoc, ← hout, Text.width_append, hk] at hnew
    rw [Span.slice, Span.slice, Span.shift, hp, hq, Nat.add_right_comm _ p, Nat.add_right_comm _ q,
      Nat.add_assoc _ _ k]
    exact hnew.trans hold.symm

/-- A source with a longer name in the place of another is read, and nothing else is new. -/
theorem exists_renamed {n n' : Text} {k : Nat} {l : TokenSequence} (hl : tokenize source = .ok l)
    (hcut : cut source = P ++ ⟨.token .name, n⟩ :: Q) (hcut' : cut out = P ++ ⟨.token .name, n'⟩ :: Q)
    (hk : Text.width n' = Text.width n + k) :
    ∃ l', Renamed (countIn P) k n' source out l l' := by
  obtain ⟨l', hl', hsize, hjoints⟩ := exists_joints hl (show (cut out).map Piece.kind = _ by
    rw [hcut, hcut']
    simp)
  obtain ⟨hslice, hslice'⟩ := slice_around hcut hcut' hk
  obtain ⟨hearly, hname, hlate⟩ := bare_around hl hcut
  obtain ⟨hearly', hname', hlate'⟩ := bare_around hl' hcut'
  have hbefore : ∀ i, i < countIn P →
      l'.tokens[i]? = (l.tokens[i]?).map (Token.carried id (fun _ => Span.shift 0) i) := fun i hi =>
    eq_carried i ((hearly' i hi).trans (hearly i hi).symm) (hjoints i)
  have hafter : ∀ i, countIn P + 1 ≤ i →
      l'.tokens[i]? = (l.tokens[i]?).map (Token.carried id (fun _ => Span.shift k) i) := by
    intro i hi
    obtain ⟨q, rfl⟩ := Nat.exists_eq_add_of_le hi
    refine eq_carried _ ?_ (hjoints _)
    rw [hlate', hk, ← Nat.add_assoc, tokensIn_shift, List.getElem?_map, ← hlate, Option.map_map]
    rfl
  obtain ⟨t, ht, htbare⟩ := Option.map_eq_some_iff.mp hname
  obtain ⟨t', ht', htbare'⟩ := Option.map_eq_some_iff.mp hname'
  obtain ⟨hkind, hspan, htext, -⟩ := Token.mk.inj htbare
  obtain ⟨hkind', hspan', htext', -⟩ := Token.mk.inj htbare'
  have hle : countIn P < l.tokens.size := (Array.getElem?_eq_some_iff.mp ht).1
  refine ⟨l', hl, hl', hsize, ⟨t, ht, hkind, ?_⟩, ⟨hle.le, fun i _ hi => hbefore i hi, fun _ _ _ => rfl,
    fun q hq => hq, fun q hq => hq, ?_⟩, ⟨Nat.le_refl _, fun i hi _ => hafter i hi, fun _ _ _ => rfl,
    fun q hq => hq, fun q hq => hq, ?_⟩, ?_⟩
  · rw [ht']
    have hjoint := hjoints (countIn P)
    rw [ht, ht'] at hjoint
    obtain ⟨-, hpartner⟩ := Prod.mk.inj (Option.some.inj hjoint)
    clear hjoint
    obtain ⟨kind, span, text, partner⟩ := t
    obtain ⟨kind', span', text', partner'⟩ := t'
    simp only at hkind hspan htext hkind' hspan' htext' hpartner
    subst hkind hspan htext hkind' hspan' htext' hpartner
    simp [hk, Nat.add_assoc]
  · intro i j _ hij hj
    have hu := Array.getElem?_eq_getElem (show i < l.tokens.size by omega)
    have hv := Array.getElem?_eq_getElem (show j < l.tokens.size by omega)
    have hstop := (span_of_tokenize hl hcut hv).1 (by rw [length_tokensIn]; exact hj)
    simp only [argument, stopAt, Nat.add_zero, hbefore i (by omega), hbefore j hj, hu, hv, Option.map_some,
      Option.getD_some, Token.carried, span_shift_zero]
    exact hslice _ hstop
  · intro i j hi hij hj
    have hu := Array.getElem?_eq_getElem (show i < l.tokens.size by omega)
    have hv := Array.getElem?_eq_getElem hj
    have hcut₁ : cut source = (P ++ [⟨.token .name, n⟩]) ++ Q := by rw [hcut]; simp
    have hstart := (span_of_tokenize hl hcut₁ hu).2 (by
      rw [length_tokensIn, ← countIn, countIn_append, countIn_singleton rfl]
      exact hi)
    rw [extent_append, extent_cons] at hstart
    have hle := ((Covers.of_tokens hij hu hj).lt hl).le
    simp only [argument, stopAt, Nat.add_zero, hafter i hi, hafter j (by omega), hu, hv, Option.map_some,
      Option.getD_some, Token.carried]
    rw [stopAt_eq hv] at hle
    refine hslice' ⟨_, _⟩ ?_ hle
    dsimp only at hstart ⊢
    omega
  · intro u hu
    obtain rfl := Option.some.inj (ht.symm.trans hu)
    rw [hspan]
    have hdocs := (bare_of_tokenize hl).2
    have hdocs' := (bare_of_tokenize hl').2
    rw [hcut, docsIn_append, Nat.zero_add, docsIn, if_neg (by simp), List.nil_append] at hdocs
    rw [hcut', docsIn_append, Nat.zero_add, docsIn, if_neg (by simp), List.nil_append, hk, ← Nat.add_assoc,
      docsIn_shift] at hdocs'
    refine docsMoved_of_parts hdocs hdocs' (fun d hd => doc_lt hl hd) (fun d hd => ?_) fun d hd => ?_
    · have := (bounds_of_mem_docsIn hd).2.2
      rw [Nat.zero_add] at this
      exact ⟨this, hslice d this⟩
    · have := (bounds_of_mem_docsIn hd).1
      refine ⟨by dsimp only; omega, hslice' d this ?_⟩
      exact (doc_lt hl (by rw [hdocs]; exact List.mem_append_right _ hd)).le

/-! ## §3 A group of attributes -/

namespace AttributeGroup

/-- Between the tokens `i` and `j` of a group that the token `c` closes the attributes `as` are read. -/
inductive Walk (l : TokenSequence) (source : Text) (c : Nat) : Nat → List Attribute → Nat → Prop
  | nil (i : Nat) : Walk l source c i [] i
  | skip {i j : Nat} {t : Token} {as : List Attribute} (lt : i < c) (token : l.tokens[i]? = some t)
      (other : t.kind ≠ .name) (rest : Walk l source c (i + 1) as j) : Walk l source c i as j
  | named {i j : Nat} {t : Token} {as : List Attribute} (lt : i < c) (token : l.tokens[i]? = some t)
      (name : t.kind = .name)
      (rest : Walk l source c (nextComma l c (attributeAt l source i t).2 + 1) as j) :
      Walk l source c i ((attributeAt l source i t).1 :: as) j

variable {l l' : TokenSequence} {c i j : Nat} {a : Attribute} {as bs : List Attribute}

theorem Walk.le (h : Walk l source c i as j) : i ≤ j := by
  induction h with
  | nil => exact Nat.le_refl _
  | skip lt token other rest ih => omega
  | @named i j t as lt token name rest ih =>
    have := lt_attributeAt l source i t
    have := le_nextComma l c (attributeAt l source i t).2
    omega

theorem Walk.attributesFrom_eq (h : Walk l source c i as j) :
    attributesFrom l source c i = as ++ attributesFrom l source c j := by
  induction h with
  | nil => rfl
  | skip lt token other rest ih => rw [attributesFrom, if_pos lt, token, ← ih]; exact if_neg other
  | named lt token name rest ih =>
    rw [attributesFrom, if_pos lt, token, List.cons_append, ← ih]
    exact if_pos name

/-- The walk that reads an attribute comes to its name. -/
theorem exists_walk (h : attributesFrom l source c i = as ++ a :: bs) :
    ∃ j t, Walk l source c i as j ∧ j < c ∧ l.tokens[j]? = some t ∧ t.kind = .name ∧
      a = (attributeAt l source j t).1 ∧
      bs = attributesFrom l source c (nextComma l c (attributeAt l source j t).2 + 1) := by
  fun_induction attributesFrom l source c i generalizing as with
  | case1 i hi htok => simp at h
  | case2 i hi t ht hname r =>
    rename_i ih
    cases as with
    | nil =>
      obtain ⟨rfl, rfl⟩ := List.cons.inj h
      exact ⟨i, t, .nil i, hi, ht, hname, rfl, rfl⟩
    | cons a' as =>
      obtain ⟨rfl, hrest⟩ := List.cons.inj h
      obtain ⟨j, u, hwalk, hj, hu, hname', ha, hbs⟩ := ih hrest
      exact ⟨j, u, .named hi ht hname hwalk, hj, hu, hname', ha, hbs⟩
  | case3 i hi t ht hname ih =>
    obtain ⟨j, u, hwalk, hj, hu, hname', ha, hbs⟩ := ih h
    exact ⟨j, u, .skip hi ht hname hwalk, hj, hu, hname', ha, hbs⟩
  | case4 i hi => simp at h

/-- A walk that stays in a stretch is taken again. -/
theorem Walk.copied {f : Nat → Nat} {x y d k : Nat} (h : Walk l source c i as j)
    (hcopied : Copied f x y d k source out l l') (hn : l.Nested) (hx : x ≤ i) (hj : j ≤ y) :
    Walk l' out (c + d) (i + d) (as.map (Attribute.shift k)) (j + d) := by
  induction h with
  | nil => exact .nil _
  | @skip i j t as lt token other rest ih =>
    have := rest.le
    have htoken := hcopied.token i hx (by omega)
    rw [token] at htoken
    refine .skip (by omega) htoken other ?_
    rw [Nat.add_right_comm]
    exact ih (by omega) hj
  | @named i j t as lt token name rest ih =>
    have := rest.le
    have := lt_attributeAt l source i t
    have := le_nextComma l c (attributeAt l source i t).2
    have htoken := hcopied.token i hx (by omega)
    rw [token] at htoken
    have hattribute := hcopied.attributeAt (t := t) hn hx (by omega)
    have hcomma := hcopied.nextComma (c := c) (i := (attributeAt l source i t).2) (by omega) (by omega)
      fun _ => by omega
    have hrest := ih (by omega) hj
    rw [Nat.add_right_comm, ← hcomma] at hrest
    have hwalk : Walk l' out (c + d) (i + d) _ (j + d) :=
      .named (by omega) htoken name (by rw [hattribute]; exact hrest)
    rwa [hattribute] at hwalk

end AttributeGroup

/-- An attribute with another name, which ends `k` bytes later. -/
def Attribute.renamed (name : Text) (k : Nat) (a : Attribute) : Attribute :=
  ⟨name, ⟨a.nameSpan.start, a.nameSpan.stop + k⟩, ⟨a.span.start, a.span.stop + k⟩,
    a.arguments.map (Argument.shift k)⟩

/-- A group of which an attribute is renamed is read again. -/
theorem Renamed.parse {j k o c : Nat} {name : Text} {l l' : TokenSequence} {g : AttributeGroup}
    {a : Attribute} {as bs : List Attribute} {t : Token} (h : Renamed j k name source out l l')
    (hg : GroupAt l source g o c) (hparse : AttributeGroup.parse l source o = some g)
    (hwalk : AttributeGroup.Walk l source c (o + 1) as j) (hj : j < c) (ht : l.tokens[j]? = some t)
    (hname : t.kind = .name) (ha : a = (AttributeGroup.attributeAt l source j t).1)
    (hbs : bs = AttributeGroup.attributesFrom l source c
      (AttributeGroup.nextComma l c (AttributeGroup.attributeAt l source j t).2 + 1)) :
    AttributeGroup.parse l' out o = some ⟨⟨g.span.start, g.span.stop + k⟩,
      as ++ a.renamed name k :: bs.map (Attribute.shift k), g.next⟩ := by
  have hn := nested_of_tokenize h.read
  have hlt := hwalk.le
  have hsize := hn.lt_size hg.partner
  have hafter := h.after
  obtain ⟨u, hu, -, hu'⟩ := h.named
  obtain rfl := Option.some.inj (ht.symm.trans hu)
  -- the attributes before the name, the one that has it and those after it
  have hbefore := hwalk.copied h.before hn (Nat.zero_le _) (Nat.le_refl j)
  have hid : Attribute.shift 0 = id := funext attribute_shift_zero
  rw [Nat.add_zero c, Nat.add_zero (o + 1), Nat.add_zero j, hid, List.map_id] at hbefore
  have hnext := AttributeGroup.lt_attributeAt l source j t
  have hle := hn.attributeAt_le source (t := t) hg.partner (by omega) hj
  have hcomma := hn.nextComma_le hg.partner (by omega) hle
  have hgoes := AttributeGroup.le_nextComma l c (AttributeGroup.attributeAt l source j t).2
  have hhere := hafter.attributeAt_named hn (t := t) (Nat.le_refl _) (by omega) (.inl (by omega)) (show Span.stop
    (Token.span ⟨t.kind, ⟨t.span.start, t.span.stop + k⟩, name, t.partner⟩) = t.span.stop + k from rfl)
  have hskip := hafter.nextComma (c := c) (i := (AttributeGroup.attributeAt l source j t).2) (by omega)
    (by omega) fun _ => by omega
  have hrest := hafter.attributesFrom hn hg.partner
    (i := AttributeGroup.nextComma l c (AttributeGroup.attributeAt l source j t).2 + 1) (by omega) (by omega)
    hsize
  simp only [Nat.add_zero] at hhere hskip hrest
  obtain ⟨hnamed, hspan⟩ := attributeAt_name l source j t
  have hstart : (AttributeGroup.attributeAt l source j t).1.span.start = t.span.start := by
    unfold AttributeGroup.attributeAt
    split
    · dsimp only
      split <;> rfl
    · rfl
  have hattributes : AttributeGroup.attributesFrom l' out c (o + 1) =
      as ++ a.renamed name k :: bs.map (Attribute.shift k) := by
    rw [hbefore.attributesFrom_eq, AttributeGroup.attributesFrom, if_pos hj, hu']
    dsimp only
    rw [if_pos hname, hhere]
    dsimp only
    rw [hskip, hrest, ← hbs, Attribute.renamed, ha, hspan, hstart]
  unfold AttributeGroup.parse at hparse ⊢
  obtain ⟨v, hv, hparse⟩ := Option.bind_eq_some_iff.mp hparse
  have hv' := h.before.token o (Nat.zero_le o) (by omega)
  have hpartner : v.partner = some c := by
    obtain ⟨v', hv', hc⟩ := partnerAt_eq_some.mp hg.partner
    obtain rfl := Option.some.inj (hv.symm.trans hv')
    exact hc
  rw [Nat.add_zero, hv] at hv'
  split at hparse
  · cases hparse
  · rename_i hkind
    rw [hpartner] at hparse
    obtain rfl := Option.some.inj hparse
    rw [hv']
    simp only [Option.map_some, Option.bind_eq_bind, Option.bind_some, Token.carried, hpartner, hkind,
      if_false, span_shift_zero, Option.map_some, id_eq, hattributes]
    have hstop := hafter.stopAt (show j + 1 ≤ c by omega) hsize
    rw [Nat.add_zero] at hstop
    rw [hstop]

end Crosslink.Source
