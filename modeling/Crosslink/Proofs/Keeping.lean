import Crosslink.Proofs.Granting
import Crosslink.Proofs.Removing
import Crosslink.Proofs.Unlinking

/-!
# What edits keep of a text

An edit of a test splices texts into a stretch of its source: in a chain into what comes after the call of the
test, up to the end of the chain, and in attribute lists into what stands above the name of the method, from
the line on which the method starts. What stands before the stretch and what stands behind it is kept.

* §1 `KeptOutside`, and `keptOutside_of_apply`, splices that stand in a stretch.
* §2 `FluentChain.Standing.keptOutside`, the pieces of a chain.
* §3 `AttributeList.keptOutside_of_inject` and `AttributeList.keptOutside_of_remove`, the groups of a method.
-/

namespace Crosslink

/-! ## §1 Stretches of a text -/

/-- Between two offsets a text has another in its place; what stands before the first and behind the second is
kept. -/
def KeptOutside (source out : Text) (start stop : Nat) : Prop :=
  ∃ x m m' y, source = x ++ (m ++ y) ∧ out = x ++ (m' ++ y) ∧ Text.width x = start ∧
    Text.width (x ++ m) = stop

variable {source out : Text} {splices : List Splice} {start stop : Nat}

open Splice in
/-- Splices that stand in a stretch of a text keep what is outside of it. -/
theorem keptOutside_of_apply (hstart : Text.isBoundary start source = true)
    (hstop : Text.isBoundary stop source = true) (hle : start ≤ stop)
    (hfits : ∀ s ∈ splices, s.span.Fits source)
    (hwithin : ∀ s ∈ splices, start ≤ s.span.start ∧ s.span.stop ≤ stop)
    (h : apply source splices = .ok out) : KeptOutside source out start stop := by
  obtain ⟨x, m, y, rfl, rfl, rfl⟩ := Span.Fits.exists_parts (a := ⟨start, stop⟩) ⟨hle, hstart, hstop⟩
  have hout := eq_spliced_of_apply hfits h
  rw [spliced_append_of_before (by simpa using fun s hs => (hwithin s hs).1), Nat.zero_add] at hout
  obtain ⟨m', hm'⟩ := exists_spliced_append (n := Text.width x) (m := m)
    (fun s (hs : s ∈ splices) => ⟨(hfits s hs).le, (hwithin s hs).2⟩) y
  exact ⟨x, m, m', y, rfl, by rw [hout, hm'], rfl, Text.width_append x m⟩

/-! ## §2 Chains -/

namespace FluentChain

open Source Source.TokenSequence

variable {l : TokenSequence} {imports : Imports} {file : File} {i o c : Nat} {keyword : Keyword} {t : Test}
  {A M Q : List Piece} {cs₁ cs₂ : List ChainCall}

/-- A test ends where the last call chained to it does, or its own call. -/
theorem Standing.span_stop {cs : List ChainCall} (hsited : Sited source l file i o c keyword t)
    (h : Standing source l imports c t A cs Q) :
    t.case.span.stop = Reading.extent (A ++ cs.flatMap ChainCall.pieces) := by
  have hend : t.case.span.stop = (t.chain.getLast?.map Call.stop).getD (l.stopAt c) := by
    obtain ⟨groups, tok, -, rfl⟩ := hsited.test
    rfl
  rw [hend, h.chain]
  obtain rfl | ⟨cs₀, d, rfl⟩ := List.eq_nil_or_concat cs
  · obtain ⟨hstop, -⟩ := stopAt_of_closes hsited.read h.cut h.closes
    rw [h.count, Nat.add_sub_cancel] at hstop
    simp [readChain, hstop]
  · rw [List.concat_eq_append, readChain_append, readChain]
    simp [readChain, ChainCall.read, extent_append, Nat.add_assoc]

/-- A change of the chain of a test keeps what stands up to the end of its call, and what stands behind the
chain. -/
theorem Standing.keptOutside (hsited : Sited source l file i o c keyword t)
    (h : Standing source l imports c t A (cs₁ ++ cs₂) Q) :
    KeptOutside source ((A ++ M ++ (cs₂.flatMap ChainCall.pieces ++ Q)).flatMap Piece.text) t.callStop
      t.case.span.stop := by
  rw [h.callStop hsited, h.span_stop hsited]
  refine ⟨A.flatMap Piece.text, ((cs₁ ++ cs₂).flatMap ChainCall.pieces).flatMap Piece.text,
    (M ++ cs₂.flatMap ChainCall.pieces).flatMap Piece.text, Q.flatMap Piece.text, ?_, by simp, rfl, ?_⟩
  · rw [← List.flatMap_append, ← List.flatMap_append, ← h.cut, cut_flatten]
  · rw [← List.flatMap_append]
    rfl

end FluentChain

/-! ## §3 Attribute lists -/

namespace Source

open TokenSequence

variable {l : TokenSequence} {m : Method} {g : AttributeGroup} {i : Nat} {t : Token}

/-- A token begins and ends with characters that are no blanks. -/
theorem token_framed (hl : tokenize source = .ok l) (ht : l.tokens[i]? = some t) : t.span.Framed source := by
  obtain ⟨x, y, hsource, hx, hstop⟩ := exists_token_parts hl ht
  obtain ⟨b, bs, hmeasure, htext⟩ := exists_measure hl ht
  refine ⟨token_lt hl ht, ⟨x, _, b, by rw [hsource, htext]; rfl, hx, isAsciiBlank_of_measure hmeasure⟩, ?_⟩
  obtain ⟨u, d, hu⟩ := List.eq_nil_or_concat t.text |>.resolve_left (by simp [htext])
  refine ⟨x ++ u, y, d, by rw [hsource, hu]; simp, ?_, ?_⟩
  · rw [hstop, hu]
    simp
  · refine last_of_token hmeasure ?_
    rw [← htext, hu]
    simp

/-- The groups of a method stand between its start and its name. -/
theorem MethodAt.group_le (hl : tokenize source = .ok l) (h : MethodAt l source m) (hg : g ∈ m.attributes) :
    m.start ≤ g.span.start ∧ g.span.stop ≤ m.nameSpan.start := by
  obtain ⟨k, u, hu, -, -, hspan, hruns, -⟩ := h.name
  obtain ⟨f, v, hcovers, -, hv⟩ := hruns.mem (List.mem_map_of_mem hg)
  exact ⟨h.first g hg, hspan ▸ hcovers.stop_le_start hl (.token hu) hv⟩

theorem MethodAt.name_framed (hl : tokenize source = .ok l) (h : MethodAt l source m) :
    m.nameSpan.Framed source := by
  obtain ⟨k, u, hu, -, -, hspan, -⟩ := h.name
  exact hspan ▸ token_framed hl hu

/-- A method starts at a token before its name. -/
theorem MethodAt.start_lt (hl : tokenize source = .ok l) (h : MethodAt l source m) :
    Text.isBoundary m.start source = true ∧ m.start < m.nameSpan.start := by
  obtain ⟨k, u, hu, -, -, hspan, -, ⟨j, v, hj, hv, hstart⟩, -⟩ := h.name
  exact ⟨hstart ▸ (token_fits hl hv).start, hstart ▸ hspan ▸ Source.start_lt hl hv hu hj⟩

end Source

namespace AttributeList

open Source Source.TokenSequence

variable {l : TokenSequence} {imports : Imports} {file : File} {m : Method} {t : Test} {r : TestCase}
  {targets : List Target} {names : List Text} {covers : Bool} {s : Splice}

/-- The stretch of a source in which the links of a method are declared: from the line on which the method
starts up to its name. -/
def Stretched (source : Text) (m : Method) (s : Span) : Prop :=
  Line.start source m.start ≤ s.start ∧ s.stop ≤ m.nameSpan.start

/-- What is put in for a link stands in the stretch. -/
theorem stretched_of_injectOne (hl : tokenize source = .ok l) (hm : MethodAt l source m) {target : Target}
    (h : s ∈ injectOne source imports m covers target) : Stretched source m s.span := by
  obtain ⟨hboundary, hlt⟩ := hm.start_lt hl
  have hline := (Line.start_le hboundary).2
  obtain ⟨-, ⟨text, rfl⟩ | ⟨a, ha, -, rfl⟩⟩ := of_mem_injectOne h
  · have hanchor : ∀ anchor ∈ (anchors m).getLast?, ∃ g ∈ m.attributes, g.span = anchor := fun anchor hlast => by
      obtain ⟨g, hg, rfl⟩ := List.mem_map.mp (List.mem_of_getLast? hlast)
      refine ⟨g, ?_, rfl⟩
      split at hg
      · exact hg
      · exact (List.mem_filter.mp hg).1
    unfold Edit.addLine
    cases hlast : (anchors m).getLast? with
    | none =>
      -- there are no groups, so the method starts with its first word
      have hnone : m.attributes = [] := by
        have hempty := List.map_eq_nil_iff.mp (List.getLast?_eq_none_iff.mp hlast)
        split at hempty
        · exact hempty
        · rename_i hne
          exact absurd (by rw [hempty]; rfl) hne
      dsimp only
      rw [← hm.alone hnone]
      split
      · exact ⟨Nat.le_refl _, by dsimp only [Splice.span, Span.point]; omega⟩
      · exact ⟨hline, hlt.le⟩
    | some anchor =>
      obtain ⟨g, hg, rfl⟩ := hanchor anchor hlast
      obtain ⟨hstart, hstop⟩ := hm.group_le hl hg
      obtain ⟨o, c, hat⟩ := hm.groups g hg
      have hframed := hat.framed hl
      have := hframed.lt
      have hnext := (Line.le_next (Edit.fits_of_framed hframed).stop).2
      dsimp only
      split
      · exact ⟨by dsimp only [Splice.span, Span.point]; omega, hstop⟩
      · rename_i hblank
        split
        · exact ⟨by dsimp only [Splice.span, Span.point]; omega, hstop⟩
        · exact ⟨by dsimp only [Splice.span, Span.point]; omega,
            Edit.next_le hframed (hm.name_framed hl) hstop (by simpa using hblank)⟩
  · obtain ⟨g, -, hg, hag⟩ := mem_linkAttributes ha
    obtain ⟨o, c, hat⟩ := hm.groups g hg
    obtain ⟨hstart, hstop⟩ := hm.group_le hl hg
    have hplaced := attributePlaced hl hat hag
    have := hplaced.start
    have := hplaced.stop
    have := hplaced.upgrade_start
    have := hplaced.upgrade_stop
    exact ⟨by omega, by omega⟩

/-- What is taken out for a group stands in the stretch. -/
theorem stretched_of_removeFromGroup (hl : tokenize source = .ok l) (hm : MethodAt l source m)
    {g : AttributeGroup} (hg : g ∈ m.attributes) (h : s ∈ removeFromGroup source imports targets g) :
    Stretched source m s.span := by
  obtain ⟨hboundary, -⟩ := hm.start_lt hl
  obtain ⟨hstart, hstop⟩ := hm.group_le hl hg
  obtain ⟨o, c, hat⟩ := hm.groups g hg
  by_cases hwhole : Whole imports targets g
  · rw [removeFromGroup_of_whole hwhole] at h
    obtain rfl := List.mem_singleton.mp h
    exact ⟨Edit.line_le_takeOut_start hboundary (hat.framed hl) hstart,
      Edit.takeOut_stop_le (hat.framed hl) (hm.name_framed hl) hstop⟩
  · have := (rowed_removeFromGroup imports targets hl hat hwhole).1.within s h
    have := (Line.start_le hboundary).2
    exact ⟨by omega, by omega⟩

/-- Splices in the stretch of a method keep what is outside of it. -/
theorem keptOutside_of_stretched (hl : tokenize source = .ok l) (hm : MethodAt l source m)
    (hfits : ∀ s ∈ splices, s.span.Fits source) (hwithin : ∀ s ∈ splices, Stretched source m s.span)
    (h : applyEdit source splices = .ok out) :
    KeptOutside source out (Line.start source m.start) m.nameSpan.start := by
  obtain ⟨hboundary, hlt⟩ := hm.start_lt hl
  obtain ⟨hline, hle⟩ := Line.start_le hboundary
  exact keptOutside_of_apply hline (Edit.fits_of_framed (hm.name_framed hl)).start (by omega) hfits hwithin
    (apply_of_applyEdit h)

/-- Links that are added keep what is outside of the stretch. -/
theorem keptOutside_of_inject (hlocate : locate source r = .ok (file, t))
    (hnames : parseTargets names = .ok targets) (h : inject source r names covers = .ok out) :
    KeptOutside source out (Line.start source t.method.start) t.method.nameSpan.start := by
  obtain ⟨l, hl, hm⟩ := of_locate hlocate
  simp only [inject, hlocate, hnames, bind, Except.bind] at h
  refine keptOutside_of_stretched hl hm (apart_injectSplices hl hm targets covers).fits (fun s hs => ?_) h
  obtain ⟨w, -, hs⟩ := List.mem_flatMap.mp hs
  exact stretched_of_injectOne hl hm hs

/-- So do links that are taken out. -/
theorem keptOutside_of_remove (hlocate : locate source r = .ok (file, t))
    (hnames : parseTargets names = .ok targets) (h : remove source r names = .ok out) :
    KeptOutside source out (Line.start source t.method.start) t.method.nameSpan.start := by
  obtain ⟨l, hl, hm⟩ := of_locate hlocate
  rw [remove_eq hlocate hnames] at h
  have hgroup : ∀ s ∈ (groupsWithLinks t.method).flatMap (removeFromGroup source file.imports targets),
      ∃ g ∈ t.method.attributes, s ∈ removeFromGroup source file.imports targets g := fun s hs => by
    obtain ⟨g, hg, hs⟩ := List.mem_flatMap.mp hs
    exact ⟨g, (List.mem_filter.mp hg).1, hs⟩
  refine keptOutside_of_stretched hl hm (fun s hs => ?_) (fun s hs => ?_) h
  · obtain ⟨g, hg, hs⟩ := hgroup s hs
    obtain ⟨o, c, hat⟩ := hm.groups g hg
    exact ((removeFromGroup_holds hl hat).1 s hs).1
  · obtain ⟨g, hg, hs⟩ := hgroup s hs
    exact stretched_of_removeFromGroup hl hm hg hs

end AttributeList

end Crosslink
