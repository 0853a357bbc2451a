import Crosslink.Proofs.Engraving
import Crosslink.Proofs.Margins
import Crosslink.Proofs.Partition
import Crosslink.Proofs.Seats

/-!
# Where groups are written

New groups for a method are written on a line of their own or beside what stands on the line. In each
layout the place is one between two pieces, and what stands before it is cut as it was when groups
with blanks around them come next.

* §1 `Layout`, the blanks that are written around a group.
* §2 `Berth`, a place with these blanks.
* §3 `exists_berth`, the berth of a method.
-/

namespace Crosslink.Source

variable {source t t' : Text} {A P Q : List Piece} {p : Piece}

/-! ## §1 Layouts -/

theorem isAsciiBlank_of_isIndent {c : Char} (h : isIndent c = true) : isAsciiBlank c = true := by
  simp only [isIndent, Bool.or_eq_true, decide_eq_true_eq] at h
  obtain rfl | rfl := h <;> decide

theorem isIndent_indentation (source : Text) (n : Nat) :
    ∀ c ∈ Line.indentation source n, isIndent c = true := fun _ hc =>
  List.all_eq_true.mp List.all_takeWhile _ hc

theorem ending_cases (source : Text) : Line.ending source = ['\n'] ∨ Line.ending source = ['\r', '\n'] := by
  unfold Line.ending
  split
  · exact .inr rfl
  · exact .inl rfl

/-- The blanks that are written before and after each group between two parts of a source. -/
inductive Layout (source : Text) (anchors : List AttributeGroup) (x y : Text) : Text → Text → Prop
  /-- Each group stands on a line of its own. -/
  | lines {before after : Text} (starts : x.getLast? = some '\n')
      (indent : ∀ c ∈ before, isIndent c = true) (ending : after = ['\n'] ∨ after = ['\r', '\n'])
      (last : ∀ g ∈ anchors.getLast?, Line.blankAfter source g.span.stop = true) :
      Layout source anchors x y before after
  /-- The groups stand before a word on its line. -/
  | front (none : anchors = []) (word : ∃ c cs, y = c :: cs ∧ isAsciiBlank c = false) :
      Layout source anchors x y [] [' ']
  /-- The groups stand after the last anchor, and the line goes on after them. -/
  | beside {g : AttributeGroup} (anchor : anchors.getLast? = some g)
      (goes_on : Line.blankAfter source g.span.stop = false) (stop : g.span.stop = Text.width x)
      (last : ∃ u c, x = u ++ [c] ∧ isAsciiBlank c = false) : Layout source anchors x y [' '] []

variable {anchors : List AttributeGroup} {x y before after : Text}

theorem Layout.blank_before (h : Layout source anchors x y before after) :
    ∀ c ∈ before, isAsciiBlank c = true := by
  cases h with
  | lines starts indent ending last => exact fun c hc => isAsciiBlank_of_isIndent (indent c hc)
  | front none word => simp
  | beside anchor goes_on stop last => simp [isAsciiBlank]

theorem Layout.blank_after (h : Layout source anchors x y before after) :
    ∀ c ∈ after, isAsciiBlank c = true := by
  cases h with
  | lines starts indent ending last => obtain rfl | rfl := ending <;> simp [isAsciiBlank]
  | front none word => simp [isAsciiBlank]
  | beside anchor goes_on stop last => simp

/-! ## §2 Berths -/

/-- After a piece that ends by itself a source may go on another way. -/
theorem goes_on_of_seals (hcut : cut source = (A ++ [p]) ++ Q) (hQ : Q.flatMap Piece.text ≠ [])
    (hp : p.seals = true)
    (htag : "<?".toList <:+: (A ++ [p]).flatMap Piece.text ++ t' → "<?".toList <:+: source) :
    cut ((A ++ [p]).flatMap Piece.text ++ t') = (A ++ [p]) ++ cutCode t' := by
  have hsource : source = A.flatMap Piece.text ++ (p.text ++ Q.flatMap Piece.text) := by
    rw [← cut_flatten source, hcut]
    simp
  have hsuffix := cut_suffix hcut (by simp)
  have hwhole : cut (A.flatMap Piece.text ++ (p.text ++ Q.flatMap Piece.text)) =
      A ++ p :: cutCode (Q.flatMap Piece.text) := by
    rw [← hsource, hcut, ← hsuffix]
    simp
  have hgoes : cut (A.flatMap Piece.text ++ (p.text ++ t')) = A ++ p :: cutCode t' :=
    cut_of_seals hwhole hQ hp (by rw [← hsource]; simpa using htag)
  simpa using hgoes

open TokenSequence

/-- The place before the token `k`, where groups are added to a source, with the blanks that are
written before and after each. -/
structure Berth (source : Text) (anchors : List AttributeGroup) (start k : Nat) (P Q : List Piece)
    (before after : Text) : Prop where
  cut : Source.cut source = P ++ Q
  count : countIn P = k
  insert : ∀ text, Edit.addLine source (anchors.map AttributeGroup.span) start text =
    .insert (Reading.extent P) (before ++ text ++ after)
  layout : Layout source anchors (P.flatMap Piece.text) (Q.flatMap Piece.text) before after
  /-- Without anchors a group is written to where the first word stood, and no documentation comment
  stands between the place and that word. -/
  clear : anchors = [] → Reading.extent P + Text.width before = start ∧
    ∀ d ∈ docsIn (Reading.extent P) Q, start < d.stop
  goes_on : ∀ t, ("<?".toList <:+: P.flatMap Piece.text ++ (before ++ '#' :: t) →
      "<?".toList <:+: source) →
    Source.cut (P.flatMap Piece.text ++ (before ++ '#' :: t)) = P ++ cutCode (before ++ '#' :: t)

/-! ## §3 The berth of a method -/

variable {l : TokenSequence} {start k : Nat}

/-- Below an anchor. -/
theorem exists_berth_below {g : AttributeGroup} {o c : Nat} (hl : tokenize source = .ok l)
    (hanchor : anchors.getLast? = some g) (hg : GroupAt l source g o c) (hk : c + 1 < l.tokens.size) :
    ∃ P Q before after, Berth source anchors start (c + 1) P Q before after := by
  have hn := nested_of_tokenize hl
  obtain ⟨u, hu, hstop⟩ := hg.covers.last
  obtain ⟨A, p, R, hcut, hp, -, hcount, -, hextent⟩ := exists_piece hl hu
  have hclose := hg.close hn
  rw [kindAt, hu] at hclose
  rw [Option.some.inj hclose] at hp
  have hseals : p.seals = true := by
    rw [Piece.seals, hp]
    rfl
  -- the next token
  obtain ⟨v, hv⟩ : ∃ v, l.tokens[c + 1]? = some v := ⟨_, Array.getElem?_eq_getElem hk⟩
  obtain ⟨A', q, R', hcut', -, hqtext, hcount', -, -⟩ := exists_piece hl hv
  obtain ⟨b, bs, hmeasure, hvtext⟩ := exists_measure hl hv
  have hb := isAsciiBlank_of_measure hmeasure
  obtain ⟨S, rfl⟩ : A ++ [p] <+: A' := prefix_of_count (C := cut source) ⟨R, by rw [hcut]; simp⟩
    ⟨_, hcut'.symm⟩ (by omega)
  have hcut₁ : cut source = (A ++ [p]) ++ R := by rw [hcut]; simp
  obtain rfl : R = S ++ q :: R' := by
    rw [hcut₁, List.append_assoc (A ++ [p])] at hcut'
    exact List.append_cancel_left hcut'
  generalize hx : (A ++ [p]).flatMap Piece.text = x
  generalize hz : S.flatMap Piece.text = z
  generalize hy : bs.take (measure b bs).2 ++ R'.flatMap Piece.text = y
  have hrest : (S ++ q :: R').flatMap Piece.text = z ++ b :: y := by
    rw [List.flatMap_append, List.flatMap_cons, hqtext, hvtext, hz, ← hy]
    simp
  have hsource : source = x ++ (z ++ b :: y) := by
    rw [← cut_flatten source, hcut₁, List.flatMap_append, hx, hrest]
  have hwidth : Reading.extent (A ++ [p]) = Text.width x := by rw [Reading.extent, hx]
  have hlast : (anchors.map AttributeGroup.span).getLast? = some g.span := by
    rw [List.getLast?_map, hanchor]
    rfl
  have hplace : g.span.stop = Text.width x := by rw [← hstop, ← hextent, hwidth]
  have hclear : ∀ P Q before, anchors = [] → Reading.extent P + Text.width before = start ∧
      ∀ d ∈ docsIn (Reading.extent P) Q, start < d.stop := by
    rintro P Q before rfl
    cases hanchor
  cases hblank : Line.blankAfter source g.span.stop with
  | false =>
    -- right after the anchor, where code follows it on its line
    refine ⟨A ++ [p], S ++ q :: R', [' '], [], hcut₁, ?_, fun text => ?_,
      .beside hanchor hblank (by rw [hx, hplace]) ?_, hclear _ _ _, fun t htag =>
        goes_on_of_seals hcut₁ (by simp [hrest]) hseals htag⟩
    · rw [countIn_append, countIn_singleton hp, hcount]
    · rw [Edit.addLine, hlast, hwidth, ← hplace]
      simp [hblank]
    · obtain ⟨u, w, c, hsplit, hstop', hc⟩ := (hg.framed hl).last
      obtain ⟨m, hm, -⟩ := Edit.exists_between
        (show (u ++ [c]) ++ w = x ++ (z ++ b :: y) by rw [← hsource, hsplit]; simp) (by omega)
      have hzero := congrArg Text.width hm
      rw [Text.width_append, ← hplace, hstop'] at hzero
      obtain rfl : m = [] := by
        cases m with
        | nil => rfl
        | cons d m =>
          have := d.utf8Size_pos
          rw [Text.width_cons] at hzero
          omega
      exact ⟨u, c, by rw [hx, hm, List.append_nil], hc⟩
  | true =>
    -- on the line below it
    have hafter := hblank
    rw [hsource, hplace] at hafter
    obtain ⟨z₁, z₂, rfl, hz₁, hnext⟩ := Line.exists_newline_after hb hafter
    have htake : ((z₁ ++ '\n' :: z₂) ++ b :: y).takeWhile (· ≠ '\n') = z₁ := by
      rw [List.append_assoc, Line.takeWhile_append_of_line hz₁]
      simp
    have hblanks : ∀ c ∈ z₁ ++ ['\n'], isAsciiBlank c = true := by
      intro c hc
      obtain hc | hc := List.mem_append.mp hc
      · rw [Line.blankAfter_eq, htake] at hafter
        have := List.all_eq_true.mp hafter c hc
        simp only [Bool.or_eq_true, decide_eq_true_eq] at this
        obtain hc | rfl := this
        · exact isAsciiBlank_of_isIndent hc
        · decide
      · obtain rfl := List.mem_singleton.mp hc
        decide
    have hcut₂ : cut source = ((A ++ [p]) ++ blanks z₁ ++ [⟨.blank, ['\n']⟩]) ++
        cutCode (z₂ ++ b :: y) := by
      have hsolid := solid_blanks hblanks (z₂ ++ b :: y)
      rw [hcut₁, cut_suffix hcut₁ (by simp), hrest]
      simp only [List.append_assoc, List.cons_append, List.nil_append, blanks, List.map_append,
        List.map_cons, List.map_nil] at hsolid ⊢
      rw [hsolid]
    have hextent₂ : Reading.extent ((A ++ [p]) ++ blanks z₁ ++ [⟨.blank, ['\n']⟩]) =
        Line.next source g.span.stop := by
      have htext := (solid_blanks fun c hc => hblanks c (List.mem_append_left _ hc)).text
      have hone : ('\n' : Char).utf8Size = 1 := rfl
      rw [hsource, hplace, hnext, extent_append, extent_append, hwidth, Reading.extent, Reading.extent,
        htext]
      simp [hone]
    refine ⟨_, _, Line.indentation source g.span.start, Line.ending source, hcut₂, ?_, fun text => ?_,
      .lines (by simp) (isIndent_indentation _ _) (ending_cases _) ?_, hclear _ _ _,
      fun t htag => goes_on_of_seals hcut₂ (by simp [cutCode_flatten]) rfl htag⟩
    · have hnewline : countIn [⟨.blank, ['\n']⟩] = 0 := countIn_blanks ['\n']
      rw [countIn_append, countIn_append, countIn_append, countIn_singleton hp, hcount, countIn_blanks,
        hnewline]
    · have hstop : Line.stop source g.span.stop ≠ Text.width source := by
        have := ('\n' : Char).utf8Size_pos
        rw [hsource, hplace, Line.stop_eq, htake]
        simp only [Text.width_append, Text.width_cons]
        omega
      rw [Edit.addLine, hlast]
      dsimp only
      rw [hblank, if_neg (by simp), if_neg hstop, hextent₂]
    · intro g' hg'
      rw [hanchor] at hg'
      obtain rfl := Option.some.inj hg'
      exact hblank

/-- Above the first word of a method. -/
theorem exists_berth_above {t : Token} (hl : tokenize source = .ok l) (ht : l.tokens[k]? = some t)
    (hname : startsName t.text = true) (hk : 0 < k) :
    ∃ P Q before after, Berth source [] t.span.start k P Q before after := by
  obtain ⟨A, q, R, hcut, hq, hqtext, hcount, hextent, -⟩ := exists_piece hl ht
  obtain ⟨c, cs, hmeasure, htext⟩ := exists_measure hl ht
  have hsource : source = A.flatMap Piece.text ++ (q :: R).flatMap Piece.text := by
    rw [← List.flatMap_append, ← hcut, cut_flatten]
  have hwidth : t.span.start = Text.width (A.flatMap Piece.text) := hextent.symm
  have hmark : q.kind ≠ .markup := by rw [hq]; simp
  cases hblank : Line.blankBefore source t.span.start with
  | false =>
    -- right before the word, where code precedes it on its line
    have hhead : (q :: R).flatMap Piece.text = c :: (cs.take (measure c cs).2 ++ R.flatMap Piece.text) := by
      rw [List.flatMap_cons, hqtext, htext, List.cons_append]
    have hstart : isNameStart c = true := by rwa [htext] at hname
    refine ⟨A, q :: R, [], [' '], hcut, hcount, fun text => ?_,
      .front rfl ⟨c, _, hhead, isAsciiBlank_of_measure hmeasure⟩, fun _ => ⟨hextent, ?_⟩,
      fun w htag => ?_⟩
    · rw [List.map_nil, Edit.addLine, hextent]
      simp [hblank]
    · intro d hd
      rw [← List.nil_append (q :: R)] at hd
      have := lt_stop_of_mem_docsIn (by simp) (by simp [hq]) (by simp [hqtext, htext]) hd
      omega
    · have hne : A ≠ [] := by
        rintro rfl
        exact absurd hcount (by simp [countIn]; omega)
      rw [List.nil_append] at htag ⊢
      rw [hhead] at hsource
      refine cut_append (alike_of_name _ w hstart) rfl hne ?_ (fun p _ => mayFollow_of_name p _ w hstart)
        (by rwa [← hsource])
      rw [← hsource, hcut, cut_suffix hcut hne, hhead]
  | true =>
    -- on the line above it
    have hbefore := hblank
    rw [hsource, hwidth, Line.blankBefore] at hbefore
    obtain ⟨v, hv, hline, hlast⟩ := Line.exists_head (A.flatMap Piece.text) ((q :: R).flatMap Piece.text)
    rw [← hsource, ← hwidth] at hv hline hbefore
    generalize Line.head source t.span.start = w at hv hbefore
    have hw : ∀ c ∈ w, isIndent c = true := List.all_eq_true.mp hbefore
    obtain ⟨A₁, rfl, hA₁⟩ := exists_blanks hcut hv hw ⟨hmark, fun he => by rw [he] at hq; cases hq⟩
    have hcount₁ : countIn A₁ = k := by rwa [countIn_append, countIn_blanks, Nat.add_zero] at hcount
    obtain rfl | ⟨A₂, p, rfl⟩ := List.eq_nil_or_concat A₁
    · exact absurd hcount₁ (by simp [countIn]; omega)
    rw [List.concat_eq_append] at hcut hA₁ hcount₁
    have hcut₁ : cut source = (A₂ ++ [p]) ++ (blanks w ++ q :: R) := by rw [hcut]; simp
    have hne := text_ne_nil_of_piece (show cut source = A₂ ++ p :: (blanks w ++ q :: R) by rw [hcut₁]; simp)
    have hnewline : '\n' ∈ p.text.getLast? := by
      have hall := congrArg List.getLast? hA₁
      rw [List.flatMap_append, List.flatMap_singleton, getLast?_append_of_ne_nil _ hne] at hall
      rw [List.getLast?_eq_some_getLast hne] at hall ⊢
      rw [hlast _ hall.symm]
      rfl
    obtain ⟨q', R', hqR⟩ : ∃ q' R', blanks w ++ q :: R = q' :: R' := by
      cases hb : blanks w ++ q :: R with
      | nil => simp at hb
      | cons q' R' => exact ⟨q', R', rfl⟩
    obtain rfl := blank_of_cut (show cut source = A₂ ++ p :: q' :: R' by rw [hcut₁, hqR]; simp) hnewline
      rfl (.inl rfl)
    have hrest : (blanks w ++ q :: R).flatMap Piece.text ≠ [] := by
      rw [List.flatMap_append, List.flatMap_cons, hqtext, htext]
      simp
    refine ⟨_, _, Line.indentation source t.span.start, Line.ending source, hcut₁, hcount₁,
      fun text => ?_, .lines (by simp) (isIndent_indentation _ _) (ending_cases _) (by simp),
      fun _ => ?_, fun t htag => goes_on_of_seals hcut₁ hrest rfl htag⟩
    · rw [List.map_nil, Edit.addLine, Reading.extent, hA₁, ← hline]
      simp [hblank]
    · have hplace : Reading.extent (A₂ ++ [⟨.blank, ['\n']⟩]) + Reading.extent (blanks w) = t.span.start := by
        rw [← extent_append, ← hextent, List.concat_eq_append]
      have hindentation : Line.indentation source t.span.start = w := by
        have hc : isIndent c ≠ true := fun hc => by
          have := isAsciiBlank_of_isIndent hc
          rw [isAsciiBlank_of_measure hmeasure] at this
          cases this
        rw [Line.indentation, hline, hsource, hv, List.append_assoc, Text.after_width, List.flatMap_cons,
          hqtext, htext, List.cons_append, List.takeWhile_append_of_pos hw, List.takeWhile_cons_of_neg hc,
          List.append_nil]
      have hwidth : Reading.extent (blanks w) = Text.width w := by
        rw [Reading.extent, (solid_blanks fun c hc => isAsciiBlank_of_isIndent (hw c hc)).text]
      refine ⟨by rw [hindentation, ← hwidth, hplace], fun d hd => ?_⟩
      have := lt_stop_of_mem_docsIn (by simp [blanks]) (by simp [hq]) (by simp [hqtext, htext]) hd
      omega

/-- There is a berth at the place for new groups. -/
theorem exists_berth (hl : tokenize source = .ok l) (hp : Point l source anchors start k) (hk : 0 < k)
    (hlt : k < l.tokens.size) : ∃ P Q before after, Berth source anchors start k P Q before after := by
  cases hp with
  | below anchor group => exact exists_berth_below hl anchor group hlt
  | above none token name place =>
    rw [none, ← place]
    exact exists_berth_above hl token name hk

end Crosslink.Source
