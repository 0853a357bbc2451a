import Crosslink.Proofs.Berths
import Crosslink.Proofs.Bodies
import Crosslink.Proofs.Crossing

/-!
# Groups written into a source

Groups of attributes are written at the berth of a method, one after the other, each with the blanks of
the berth around it. The source is read with the groups in it, and they are all that is new. The walk
over the class body takes one turn at each of them.

* §1 `Inscription.laid`, groups with blanks around them.
* §2 `exists_inscribed`, a source with groups written into it.
* §3 `exists_turnsAt`, the turns at the groups.
* §4 `Setting`, the berth of a method of a source, and `Setting.exists_written`, the classes of the source
  with groups written there.
-/

namespace Crosslink.Source

open TokenSequence

variable {source a b before after t : Text} {l l' : TokenSequence} {k : Nat} {I : Inscription}
  {is : List Inscription} {P Q : List Piece}

/-! ## §1 Groups with blanks around them -/

namespace Inscription

/-- The text of a group with blanks around it. -/
def laid (before after : Text) (I : Inscription) : Text := before ++ I.text ++ after

/-- The pieces of a group with blanks around it. -/
def laidPieces (before after : Text) (I : Inscription) : List Piece :=
  blanks before ++ (I.pieces ++ blanks after)

theorem solid_laid (hbefore : ∀ c ∈ before, isAsciiBlank c = true)
    (hafter : ∀ c ∈ after, isAsciiBlank c = true) (I : Inscription) :
    Solid (I.laid before after) (I.laidPieces before after) := by
  have hsolid := (solid_blanks hbefore).append (I.solid.append (solid_blanks hafter))
  rwa [← List.append_assoc] at hsolid

theorem solid_row (hbefore : ∀ c ∈ before, isAsciiBlank c = true)
    (hafter : ∀ c ∈ after, isAsciiBlank c = true) (is : List Inscription) :
    Solid (is.flatMap (laid before after)) (is.flatMap (laidPieces before after)) := by
  induction is with
  | nil => exact .nil
  | cons I is ih => exact (solid_laid hbefore hafter I).append ih

theorem block_row (before after : Text) (is : List Inscription) :
    Block (is.flatMap (laidPieces before after)) := by
  induction is with
  | nil => exact ⟨by simp, rfl⟩
  | cons I is ih =>
    exact ((block_blanks before).append (I.block.append (block_blanks after))).append ih

theorem words_laidPieces (before after : Text) (I : Inscription) :
    (I.laidPieces before after).filterMap wordOf = I.pieces.filterMap wordOf := by
  rw [laidPieces, List.filterMap_append, List.filterMap_append, (Spells.blanks before).words,
    (Spells.blanks after).words, List.nil_append, List.append_nil]

theorem countIn_laidPieces (before after : Text) (I : Inscription) :
    countIn (I.laidPieces before after) = countIn I.pieces := by
  rw [countIn, words_laidPieces]
  rfl

theorem docless_row (before after : Text) (is : List Inscription) :
    ∀ p ∈ is.flatMap (laidPieces before after), p.kind ≠ .doc := by
  have hblanks : ∀ g : Text, ∀ p ∈ blanks g, p.kind ≠ .doc := fun g p hp => by
    obtain ⟨c, -, rfl⟩ := List.mem_map.mp hp
    simp
  intro p hp
  obtain ⟨I, -, hp⟩ := List.mem_flatMap.mp hp
  obtain hp | hp := List.mem_append.mp hp
  · exact hblanks before p hp
  · obtain hp | hp := List.mem_append.mp hp
    · exact I.docless p hp
    · exact hblanks after p hp

theorem mem_words {w : Word} (hw : w ∈ (is.flatMap (laidPieces before after)).filterMap wordOf) :
    ∃ I ∈ is, w ∈ I.pieces.filterMap wordOf := by
  obtain ⟨p, hp, hw⟩ := List.mem_filterMap.mp hw
  obtain ⟨I, hI, hp⟩ := List.mem_flatMap.mp hp
  exact ⟨I, hI, by rw [← words_laidPieces before after]; exact List.mem_filterMap.mpr ⟨p, hp, hw⟩⟩

/-- A tag that stands in a group with blanks around it or in what follows stands in the group or in
what follows. -/
theorem tag_of_laid (hbefore : ∀ c ∈ before, isAsciiBlank c = true)
    (hafter : ∀ c ∈ after, isAsciiBlank c = true) (h : "<?".toList <:+: I.laid before after ++ t) :
    "<?".toList <:+: I.text ∨ "<?".toList <:+: t := by
  have hskip : ∀ g t : Text, (∀ c ∈ g, isAsciiBlank c = true) → "<?".toList <:+: g ++ t →
      "<?".toList <:+: t := by
    intro g t hg h
    have hnot : '<' ∉ g := fun hmem => absurd (hg _ hmem) (by decide)
    obtain h | h | ⟨h, -⟩ := infix_of_append h
    · exact absurd (h.subset (by simp)) hnot
    · exact h
    · exact absurd (List.mem_of_getLast? h) hnot
  rw [laid, List.append_assoc, List.append_assoc] at h
  obtain h | h | ⟨h, -⟩ := infix_of_append (hskip _ _ hbefore h)
  · exact .inl h
  · exact .inr (hskip _ _ hafter h)
  · rw [I.last] at h
    cases h

/-- Groups put into a source bring no tag into it but those that stand in a group. -/
theorem tag_of_row (hbefore : ∀ c ∈ before, isAsciiBlank c = true)
    (hafter : ∀ c ∈ after, isAsciiBlank c = true) (hne : is ≠ [])
    (h : "<?".toList <:+: a ++ (is.flatMap (laid before after) ++ b)) :
    (∃ I ∈ is, "<?".toList <:+: I.text) ∨ "<?".toList <:+: a ++ b := by
  have hrow : ∀ is : List Inscription, "<?".toList <:+: is.flatMap (laid before after) ++ b →
      (∃ I ∈ is, "<?".toList <:+: I.text) ∨ "<?".toList <:+: b := by
    intro is
    induction is with
    | nil => exact .inr
    | cons I is ih =>
      intro h
      rw [List.flatMap_cons, List.append_assoc] at h
      obtain h | h := tag_of_laid hbefore hafter h
      · exact .inl ⟨I, by simp, h⟩
      · exact (ih h).imp_left fun ⟨J, hJ, hin⟩ => ⟨J, List.mem_cons_of_mem _ hJ, hin⟩
  obtain h | h | ⟨-, h⟩ := infix_of_append h
  · exact .inr (h.trans (List.prefix_append a b).isInfix)
  · exact (hrow is h).imp_right fun h => h.trans (List.suffix_append a b).isInfix
  · obtain ⟨I, is, rfl⟩ := List.exists_cons_of_ne_nil hne
    obtain ⟨w, hw⟩ := I.head
    rw [List.flatMap_cons, laid, hw] at h
    cases before with
    | nil => simp at h
    | cons c before =>
      obtain rfl : c = '?' := by simpa using h
      exact absurd (hbefore '?' (by simp)) (by decide)

end Inscription

/-! ## §2 A source with groups written into it -/

open Inscription

/-- Groups begin with the token that opens the first one. -/
theorem first_of_row (hl : tokenize source = .ok l) (hne : is ≠ [])
    (hcut : cut source = P ++ (is.flatMap (laidPieces before after) ++ Q)) :
    l.wordAt (countIn P) = some (.attrOpen, ['#', '[']) := by
  obtain ⟨I, rest, rfl⟩ := List.exists_cons_of_ne_nil hne
  obtain ⟨R, hR⟩ := I.opens
  have hfirst : ((I :: rest).flatMap (laidPieces before after)).filterMap wordOf =
      (.attrOpen, ['#', '[']) :: (R.filterMap wordOf ++
        (rest.flatMap (laidPieces before after)).filterMap wordOf) := by
    rw [List.flatMap_cons, List.filterMap_append, words_laidPieces, hR]
    rfl
  have hat := wordAt_block hl hcut (j := 0) (by rw [hfirst]; simp)
  rw [countIn, ← Nat.add_zero (P.filterMap wordOf).length, hat, hfirst]
  rfl

theorem opens_of_row (hl : tokenize source = .ok l) (hne : is ≠ [])
    (hcut : cut source = P ++ (is.flatMap (laidPieces before after) ++ Q)) :
    ∀ t, l.tokens[countIn P]? = some t → t.kind = .attrOpen ∧ t.text ≠ ['&'] := by
  intro t ht
  have hfirst := first_of_row hl hne hcut
  rw [wordAt, ht] at hfirst
  obtain ⟨hkind, htext⟩ := Prod.mk.inj (Option.some.inj hfirst)
  exact ⟨hkind, by rw [htext]; decide⟩

/-- The walk that collects imports passes over groups in which nothing begins a statement. -/
theorem unread_of_row (hl : tokenize source = .ok l) (hne : is ≠ []) (hquiet : ∀ I ∈ is, I.Quiet)
    (hcut : cut source = P ++ (is.flatMap (laidPieces before after) ++ Q)) :
    Unread l (countIn P) (countIn (is.flatMap (laidPieces before after))) := by
  have hword : ∀ j, j < countIn (is.flatMap (laidPieces before after)) → ∀ t,
      l.tokens[countIn P + j]? = some t → ∃ I ∈ is, (t.kind, t.text) ∈ I.pieces.filterMap wordOf := by
    intro j hj t ht
    have hat := wordAt_block hl hcut hj
    rw [wordAt, ← countIn, ht] at hat
    exact mem_words (List.mem_of_getElem? hat.symm)
  refine ⟨?_, fun j hj kind hkind he => ?_, fun j hj t ht => ?_⟩
  · rw [kindAt_eq, first_of_row hl hne hcut]
    rfl
  · obtain ⟨t, ht, rfl⟩ := Option.map_eq_some_iff.mp he
    obtain ⟨I, -, hmem⟩ := hword j hj t ht
    exact I.kinds _ hmem hkind
  · obtain ⟨I, hI, hmem⟩ := hword j hj t ht
    have hnot := hquiet I hI _ hmem
    simp only [BeginsStatement, not_and_or, not_or, Bool.not_eq_true] at hnot
    simp only [Token.isWord, Bool.and_eq_false_iff, decide_eq_false_iff_not]
    exact hnot.elim (fun h => ⟨.inl h, .inl h⟩) fun h => ⟨.inr h.1, .inr h.2⟩

/-- With groups written at its berth a source is read, and the groups are the only news. -/
theorem exists_inscribed {anchors : List AttributeGroup} {start : Nat} (hl : tokenize source = .ok l)
    (hb : Berth source anchors start k P Q before after) (hk : 0 < k) (hne : is ≠ [])
    (htag : ∀ I ∈ is, "<?".toList <:+: I.text → "<?".toList <:+: source) :
    ∃ l' block, tokenize (P.flatMap Piece.text ++
        (is.flatMap (laid before after) ++ Q.flatMap Piece.text)) = .ok l' ∧
      cut (P.flatMap Piece.text ++ (is.flatMap (laid before after) ++ Q.flatMap Piece.text)) =
        P ++ (is.flatMap (laidPieces before after) ++ Q) ∧
      Inserted k (countIn (is.flatMap (laidPieces before after))) block (P.flatMap Piece.text)
        (is.flatMap (laid before after)) l l' := by
  have hbefore := hb.layout.blank_before
  have hafter := hb.layout.blank_after
  have hsolid := solid_row hbefore hafter is
  have hsource : source = P.flatMap Piece.text ++ Q.flatMap Piece.text := by
    rw [← List.flatMap_append, ← hb.cut, cut_flatten]
  have hP : P ≠ [] := by
    rintro rfl
    exact absurd hb.count (by simp [countIn]; omega)
  -- the groups begin with the blanks of the berth
  obtain ⟨I, rest, rfl⟩ := List.exists_cons_of_ne_nil hne
  obtain ⟨w, hw⟩ := I.head
  obtain ⟨z, hz⟩ : ∃ z, (I :: rest).flatMap (laid before after) ++ Q.flatMap Piece.text =
      before ++ '#' :: z := by
    refine ⟨w ++ after ++ rest.flatMap (laid before after) ++ Q.flatMap Piece.text, ?_⟩
    rw [List.flatMap_cons, laid, hw]
    simp
  have hcut : cut (P.flatMap Piece.text ++
      ((I :: rest).flatMap (laid before after) ++ Q.flatMap Piece.text)) =
      P ++ ((I :: rest).flatMap (laidPieces before after) ++ Q) := by
    have hgoes := hb.goes_on z
    rw [← hz] at hgoes
    rw [hgoes fun h => ?_, hsolid, ← cut_suffix hb.cut hP]
    obtain ⟨J, hJ, h⟩ | h := tag_of_row hbefore hafter hne h
    · exact htag J hJ h
    · rwa [hsource]
  obtain ⟨l', block, hl', hins⟩ :=
    exists_with_block hb.cut hcut (block_row before after (I :: rest)) hl
  rw [hsolid.text, ← countIn, ← countIn, hb.count] at hins
  exact ⟨l', block, hl', hcut, hins⟩

/-! ## §3 The turns at groups -/

theorem turn_of_parse (close : Nat) {i : Nat} {g : AttributeGroup}
    (h : AttributeGroup.parse l source i = some g) :
    ∃ t, l.tokens[i]? = some t ∧ l.turn source close i t = some (.grow (.group g) g.next) := by
  have hparse := h
  unfold AttributeGroup.parse at hparse
  obtain ⟨t, ht, hparse⟩ := Option.bind_eq_some_iff.mp hparse
  split at hparse
  · cases hparse
  · rename_i hkind
    exact ⟨t, ht, by rw [turn, if_pos (Classical.not_not.mp hkind), h]⟩

/-- The spans of groups that stand in a row from an offset on. -/
def spansAt (before after : Text) (offset : Nat) : List Inscription → List Span
  | [] => []
  | I :: is => ⟨offset + Text.width before, offset + Text.width before + Text.width I.text⟩ ::
      spansAt before after (offset + Text.width (I.laid before after)) is

/-- At groups one after another the walk takes one turn each. -/
theorem exists_turnsAt {α : Type} {p : α → AttributeGroup → Prop} {xs : List α}
    (hbefore : ∀ c ∈ before, isAsciiBlank c = true) (hafter : ∀ c ∈ after, isAsciiBlank c = true)
    (hreads : List.Forall₂ (fun I x => I.Reads (p x)) is xs) {A : List Piece} {close : Nat}
    (hl : tokenize source = .ok l)
    (hcut : cut source = A ++ (is.flatMap (laidPieces before after) ++ Q))
    (hclose : countIn A + countIn (is.flatMap (laidPieces before after)) ≤ close) :
    ∃ gs, TokenSequence.Path l source close (countIn A) (growTurns (turnsAt gs))
        (countIn A + countIn (is.flatMap (laidPieces before after))) ∧
      gs.map AttributeGroup.span = spansAt before after (Reading.extent A) is ∧
      List.Forall₂ p xs gs := by
  induction hreads generalizing A with
  | nil => exact ⟨[], .nil _, rfl, .nil⟩
  | @cons I x is xs hI hrest ih =>
    rw [List.flatMap_cons, countIn_append, countIn_laidPieces] at hclose ⊢
    have hhere : cut source = (A ++ blanks before) ++ (I.pieces ++
        (blanks after ++ is.flatMap (laidPieces before after) ++ Q)) := by
      rw [hcut, List.flatMap_cons, laidPieces]
      simp
    obtain ⟨g, hg, hnext, hspan, hp⟩ := hI hl hhere
    rw [countIn_append, countIn_blanks, Nat.add_zero] at hg hnext
    obtain ⟨gs, hpath, hspans, hps⟩ := ih (A := A ++ I.laidPieces before after)
      (by rw [hcut]; simp) (by rw [countIn_append, countIn_laidPieces]; omega)
    rw [countIn_append, countIn_laidPieces] at hpath
    obtain ⟨c, hat⟩ := exists_groupAt (nested_of_tokenize hl) hg
    have hlt := hat.lt
    have hc := hat.next
    obtain ⟨t, ht, hturn⟩ := turn_of_parse close hg
    refine ⟨g :: gs, .cons (by omega) ht hturn ?_, ?_, .cons hp hps⟩
    · show TokenSequence.Path l source close (max g.next (countIn A + 1)) _ _
      rw [Nat.max_eq_left (by omega), hnext, ← Nat.add_assoc]
      exact hpath
    · have hblanks : Reading.extent (blanks before) = Text.width before := by
        rw [Reading.extent, (solid_blanks hbefore).text]
      have hlaid : Reading.extent (I.laidPieces before after) = Text.width (I.laid before after) := by
        rw [Reading.extent, (solid_laid hbefore hafter I).text]
      rw [extent_append, hblanks] at hspan
      rw [extent_append, hlaid] at hspans
      rw [List.map_cons, spansAt, hspan, hspans]

/-! ## §4 Groups written to a method -/

variable {q : AttributeGroup → Bool} {C₁ C₂ : List DeclaredClass} {c : DeclaredClass} {ms ms' : List Method}
  {m : Method} {A B : List AttributeGroup}

/-- The berth where groups are written to a method of a class of a source, below the last of its groups
with a property. The groups `A` of the method stand before it, the groups `B` after it. -/
structure Setting (source : Text) (l : TokenSequence) (q : AttributeGroup → Bool) (C₁ C₂ : List DeclaredClass)
    (c : DeclaredClass) (ms ms' : List Method) (m : Method) (k : Nat) (P Q : List Piece)
    (before after : Text) (A B : List AttributeGroup) : Prop where
  berth : Berth source (anchorsBy q m) m.headStart k P Q before after
  point : Point l source (anchorsBy q m) m.headStart k
  rest : ∀ g ∈ B, q g = false
  seat : ∃ Hs₁ H Hs₂ us b xs₁ xs₂ head, l.headersFrom 0 = Hs₁ ++ H :: Hs₂ ∧
    Hs₁.map (ClassHeader.read l source) = C₁ ∧ H.read l source = c ∧
    Hs₂.map (ClassHeader.read l source) = C₂ ∧
    Seat l source l.docBetween H.close (H.body + 1) (l.stopAt H.body) ms m ms' us k b xs₁ xs₂ head ∧
    groupsIn xs₁ = A ∧ groupsIn xs₂ = B ∧ (anchorsBy q m ≠ [] → A ≠ [])

/-- A method of a class of a source has a berth. -/
theorem exists_setting (q : AttributeGroup → Bool) (hl : tokenize source = .ok l)
    (hclasses : l.classes source = C₁ ++ c :: C₂) (hmethods : c.methods = ms ++ m :: ms') :
    ∃ k P Q before after A B, Setting source l q C₁ C₂ c ms ms' m k P Q before after A B := by
  have hn := nested_of_tokenize hl
  rw [classes_eq] at hclasses
  obtain ⟨Hs₁, Hs, hheaders, rfl, hHs⟩ := List.map_eq_append_iff.mp hclasses
  obtain ⟨H, Hs₂, rfl, rfl, rfl⟩ := List.map_eq_cons_iff.mp hHs
  have hplay := hmethods
  rw [ClassHeader.read, methodsFrom_eq] at hplay
  obtain ⟨us, k, b, xs₁, xs₂, head, hseat, hpoint, hA, hB⟩ := exists_seat q hn hplay
  have hstands := (stands_of_mem hn (hheaders ▸ show H ∈ Hs₁ ++ H :: Hs₂ by simp)).2
  have hsize := hn.lt_size hstands.partner
  have hlt := hseat.lt
  have hle := hseat.path.le
  obtain ⟨P, Q, before, after, hb⟩ := exists_berth hl hpoint (by omega) (by omega)
  exact ⟨k, P, Q, before, after, _, _, hb, hpoint, hB, Hs₁, H, Hs₂, us, b, xs₁, xs₂, head, hheaders, rfl, rfl,
    rfl, hseat, rfl, rfl, hA⟩

/-- The classes of a source that has the groups `gs` more than another, whose classes stand around the
class `c` and whose methods around the method `m` of it. -/
structure Written (source out : Text) (C₁ C₂ : List DeclaredClass) (c : DeclaredClass)
    (ms ms' : List Method) (m : Method) (A gs B : List AttributeGroup) (classes : List DeclaredClass) :
    Prop where
  parts : ∃ C₁' c' C₂' ms₁ m₁ ms₂, classes = C₁' ++ c' :: C₂' ∧ c'.methods = ms₁ ++ m₁ :: ms₂ ∧
    c'.name = c.name ∧ List.Forall₂ (DeclaredClass.Again source out) C₁ C₁' ∧
    List.Forall₂ (DeclaredClass.Again source out) C₂ C₂' ∧
    List.Forall₂ (Method.Again source out) ms ms₁ ∧ List.Forall₂ (Method.Again source out) ms' ms₂ ∧
    Method.Extended source out m A gs B m₁

namespace Setting

variable (h : Setting source l q C₁ C₂ c ms ms' m k P Q before after A B)

include h

theorem source_eq : source = P.flatMap Piece.text ++ Q.flatMap Piece.text := by
  rw [← List.flatMap_append, ← h.berth.cut, cut_flatten]

/-- The edit that writes groups at the berth. -/
theorem apply_eq (is : List Inscription) :
    applyEdit source (is.map fun I =>
        Edit.addLine source ((anchorsBy q m).map AttributeGroup.span) m.headStart I.text) =
      .ok (P.flatMap Piece.text ++ (is.flatMap (laid before after) ++ Q.flatMap Piece.text)) := by
  have hedits : (is.map fun I =>
      Edit.addLine source ((anchorsBy q m).map AttributeGroup.span) m.headStart I.text) =
      (is.map (laid before after)).map (.insert (Text.width (P.flatMap Piece.text))) := by
    rw [List.map_map]
    exact List.map_congr_left fun I _ => h.berth.insert I.text
  rw [hedits]
  conv => lhs; rw [h.source_eq]
  rw [applyEdit_inserts, ← List.flatMap_def]

/-- The source with groups written at the berth is read, and its classes have the groups more. If nothing
that is collected reaches across the berth or begins in the groups, its imports are those it had, and a
stretch before the berth is as clear of them as it was. -/
theorem exists_written {α : Type} {p : α → AttributeGroup → Prop} {xs : List α}
    (hl : tokenize source = .ok l) (hne : is ≠ [])
    (hreads : List.Forall₂ (fun I x => I.Reads (p x)) is xs)
    (htag : ∀ I ∈ is, "<?".toList <:+: I.text → "<?".toList <:+: source) :
    ∃ l' gs, tokenize (P.flatMap Piece.text ++
        (is.flatMap (laid before after) ++ Q.flatMap Piece.text)) = .ok l' ∧
      Written source (P.flatMap Piece.text ++ (is.flatMap (laid before after) ++ Q.flatMap Piece.text))
        C₁ C₂ c ms ms' m A gs B (l'.classes (P.flatMap Piece.text ++
          (is.flatMap (laid before after) ++ Q.flatMap Piece.text))) ∧
      gs.map AttributeGroup.span = spansAt before after (Reading.extent P) is ∧
      List.Forall₂ p xs gs ∧
      (Uncrossed l k → (∀ I ∈ is, I.Quiet) → Imports.ofTokens l' = Imports.ofTokens l ∧
        ∀ start stop, stop ≤ Reading.extent P → ClearBetween source start stop →
          ClearBetween (P.flatMap Piece.text ++
            (is.flatMap (laid before after) ++ Q.flatMap Piece.text)) start stop) := by
  obtain ⟨Hs₁, H, Hs₂, us, b, xs₁, xs₂, head, hheaders, rfl, rfl, rfl, hseat, rfl, rfl, hA⟩ := h.seat
  have hb := h.berth
  have hbefore := hb.layout.blank_before
  have hafter := hb.layout.blank_after
  have hle := hseat.path.le
  have hlt := hseat.lt
  obtain ⟨l', block, hl', hcut, hins⟩ := exists_inscribed hl hb (by omega) hne htag
  have hopens := opens_of_row hl' hne hcut
  have hclose : countIn P + countIn (is.flatMap (laidPieces before after)) ≤
      H.close + countIn (is.flatMap (laidPieces before after)) := by
    rw [hb.count]
    omega
  obtain ⟨gs, hpath, hspans, hps⟩ := exists_turnsAt hbefore hafter hreads hl' hcut hclose
  obtain rfl := hb.count
  have htext := (solid_row hbefore hafter is).text
  rw [← htext] at hins
  have hgs : gs ≠ [] := by
    rintro rfl
    cases hps
    cases hreads
    exact hne rfl
  -- a method without groups starts with its first word
  have hclear : (growAll (.fresh b) xs₁).start = none →
      (∀ g ∈ gs.head?, g.span.start = m.start) ∧ ∀ d ∈ docsIn (Reading.extent P) Q, m.start < d.stop := by
    intro hnone
    have hanchors : anchorsBy q m = [] := Classical.byContradiction fun hne =>
      hA hne (start_growAll_eq_none hnone)
    obtain ⟨hattributes, -⟩ | ⟨_, _, _, -, hlast, -⟩ := exists_anchor q m
    · obtain ⟨hplace, hgap⟩ := hb.clear hanchors
      rw [hseat.start_eq hattributes]
      refine ⟨fun g hg => ?_, hgap⟩
      obtain ⟨I, rest, rfl⟩ := List.exists_cons_of_ne_nil hne
      have hfirst := congrArg List.head? hspans
      rw [List.head?_map, hg] at hfirst
      rw [Option.some.inj hfirst]
      exact hplace
    · rw [hanchors] at hlast
      cases hlast
  refine ⟨l', gs, hl', ⟨?_⟩, hspans, hps, fun huncrossed hquiet =>
    ⟨ofTokens_uncrossed hins (unread_of_row hl' hne hquiet hcut) hl huncrossed, fun start stop hstop =>
      clearBetween_of_inserted hins (unread_of_row hl' hne hquiet hcut) hl hl' huncrossed hstop⟩⟩
  obtain ⟨C₁', c', C₂', ms₁, m₁, ms₂, hclasses, hC₁, hC₂, hname, hmethods, hms, hms', hm⟩ :=
    exists_classes_extended hl hl' hb.cut hcut (docless_row before after is) hins hopens hheaders hseat
      hclear hpath hgs
  exact ⟨C₁', c', C₂', ms₁, m₁, ms₂, hclasses, hmethods, hname, hC₁, hC₂, hms, hms', hm⟩

end Setting

end Crosslink.Source
