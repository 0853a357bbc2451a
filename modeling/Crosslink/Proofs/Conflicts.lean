import Crosslink.AttributeList.Editor
import Crosslink.Production.Editor
import Crosslink.Proofs.Aliases
import Crosslink.Proofs.Injecting
import Crosslink.Proofs.Layouts
import Crosslink.Proofs.Places

/-!
# Edits that conflict

The splices of an edit are computed one by one from the declarations of a test or a method. Those of
a chain stand in the order of its calls. Those that add attribute groups go in at one offset, below
the groups that are renamed. Only where whole attribute groups are taken out can two splices claim
the same bytes: the blanks between two groups on one line.

## Main statements

* `FluentChain.apart_injectSplices` and `FluentChain.apart_removeSplices`: the edits of a chain.
* `AttributeList.apart_injectSplices` and `Production.apart_injectSplices`: adding groups.
* `AttributeList.clear_removeSplices_iff`: taking groups out.
* `conflict_iff`: which edits end in a conflict.
-/

namespace Crosslink

open Splice

variable {source : Text}

/-! ## §1 Carrying out an edit -/

theorem applyEdit_ne_conflict {splices : List Splice} (h : Apart source splices) (e : SpliceError) :
    applyEdit source splices ≠ .error (.conflict e) := by
  obtain ⟨out, hout⟩ := h.apply_isOk
  rw [applyEdit, hout]
  simp [Except.mapError]

/-- Splices that take bytes out conflict exactly when two of them are not clear of each other. -/
theorem applyEdit_eq_conflict_iff {splices : List Splice} (hfits : ∀ s ∈ splices, s.span.Fits source)
    (hlt : ∀ s ∈ splices, s.span.start < s.span.stop) :
    (∃ e, applyEdit source splices = .error (.conflict e)) ↔ ¬ splices.Pairwise Clear := by
  rw [← apply_isOk_iff hfits hlt, applyEdit]
  cases apply source splices with
  | ok out => simp [Except.mapError]
  | error e => simp [Except.mapError]

theorem parseTargets_ne_conflict (names : List Text) (e : SpliceError) :
    parseTargets names ≠ .error (.conflict e) := by
  unfold parseTargets
  cases names.mapM Target.parse <;> simp [Except.mapError]

/-- Steps end in a conflict only if one of them does. -/
theorem bind_ne_conflict {α β : Type} {x : Except EditError α} {f : α → Except EditError β}
    {e : SpliceError} (hx : x ≠ .error (.conflict e))
    (hf : ∀ a, x = .ok a → f a ≠ .error (.conflict e)) : (x >>= f) ≠ .error (.conflict e) := by
  cases x with
  | error d => exact fun h => hx (congrArg Except.error (Except.error.inj h))
  | ok a => exact hf a rfl

/-- Splices that each element of a list gives between two offsets of its own stand in order when the
elements do. -/
theorem Splice.Rowed.flatMap {α : Type} {xs : List α} {f : α → List Splice} {lo hi : α → Nat}
    {start stop : Nat} (h : ∀ x ∈ xs, Rowed source (lo x) (hi x) (f x))
    (horder : xs.Pairwise fun x y => hi x ≤ lo y) (hstart : ∀ x ∈ xs, start ≤ lo x)
    (hstop : ∀ x ∈ xs, hi x ≤ stop) : Rowed source start stop (xs.flatMap f) := by
  refine ⟨fun s hs => ?_, fun s hs => ?_, List.pairwise_flatMap.mpr ⟨fun x hx => (h x hx).order,
    horder.imp_of_mem fun {x y} hx hy hxy s hs t ht => ?_⟩⟩
  · obtain ⟨x, hx, hs⟩ := List.mem_flatMap.mp hs
    exact (h x hx).fits s hs
  · obtain ⟨x, hx, hs⟩ := List.mem_flatMap.mp hs
    have := (h x hx).within s hs
    have := hstart x hx
    have := hstop x hx
    omega
  · have := (h x hx).within s hs
    have := (h y hy).within t ht
    omega

/-! ## §2 Chained calls -/

namespace FluentChain

open Source Source.TokenSequence

variable {l : TokenSequence} {imports : Imports} {i close : Nat} {targets : List Target}

/-- Where a chained call stands, from the end of the token before it to its closing parenthesis. -/
structure CallPlaced (source : Text) (c : Call) : Prop where
  start : Text.isBoundary c.gap.start source = true
  stop : Text.isBoundary c.stop source = true
  name : c.nameSpan.Fits source
  lt : c.gap.start < c.stop
  name_start : c.gap.start ≤ c.nameSpan.start
  name_stop : c.nameSpan.stop ≤ c.stop
  items : ∀ s ∈ c.arguments.map Argument.span, s.Fits source ∧ s.start < s.stop ∧
    c.gap.start ≤ s.start ∧ s.stop ≤ c.stop
  order : (c.arguments.map Argument.span).Pairwise fun a b => a.stop ≤ b.start

theorem callPlaced (hl : tokenize source = .ok l) (hi : 0 < i) (h : IsCall l i close) :
    CallPlaced source (callOf l source imports i close) := by
  have hn := nested_of_tokenize hl
  have hlt := h.lt hn
  have hsize := hn.lt_size h.partner
  have hprev := Array.getElem?_eq_getElem (show i - 1 < l.tokens.size by omega)
  have harrow := Array.getElem?_eq_getElem (show i < l.tokens.size by omega)
  have hname := Array.getElem?_eq_getElem (show i + 1 < l.tokens.size by omega)
  have hclose := Array.getElem?_eq_getElem hsize
  have hgap : (callOf l source imports i close).gap.start = l.tokens[i - 1].span.stop := by
    simp only [callOf, if_neg (Nat.ne_of_gt hi)]
    exact stopAt_eq hprev
  have hstop : (callOf l source imports i close).stop = l.tokens[close].span.stop := stopAt_eq hclose
  have hspan : (callOf l source imports i close).nameSpan = l.tokens[i + 1].span := by
    simp [callOf, hname]
  have hbefore := stop_le_start hl hprev hname (by omega)
  have hafter := stop_le_start hl hname hclose (by omega)
  have hnamelt := token_lt hl hname
  have hcloselt := token_lt hl hclose
  have hruns := runs_arguments source hn h.partner
  refine ⟨?_, ?_, ?_, ?_, ?_, ?_, fun s hs => ?_, hruns.order hl⟩
  · rw [hgap]
    exact (token_fits hl hprev).stop
  · rw [hstop]
    exact (token_fits hl hclose).stop
  · rw [hspan]
    exact token_fits hl hname
  · omega
  · rw [hgap, hspan]
    exact hbefore
  · rw [hstop, hspan]
    omega
  · obtain ⟨f, t, hcovers, hf, ht⟩ := hruns.mem hs
    obtain ⟨u, hu, hstart⟩ := hcovers.first
    have hfirst := stop_le_start hl hprev hu (by omega)
    have hlast := hcovers.stop_le_start hl (.token hclose) ht
    exact ⟨hcovers.fits hl, hcovers.lt hl, by omega, by omega⟩

/-- The splices of the edit of one call stand within it. -/
theorem rowed_editCall {c : Call} (h : CallPlaced source c) {whole : Call → Splice}
    (hfits : (whole c).span.Fits source) (hstart : c.gap.start ≤ (whole c).span.start)
    (hstop : (whole c).span.stop ≤ c.stop) :
    Rowed source c.gap.start c.stop (editCall whole targets c) := by
  unfold editCall
  split
  · exact (Rowed.single hfits).widen hstart hstop
  · split
    · exact (Edit.rowed_dropItems _ (fun s hs => (h.items s hs).1) (fun s hs => (h.items s hs).2.1)
        h.order fun s hs => (h.items s hs).2.2).1
    · exact .nil _ _ _

theorem rowed_upgradeCall {c : Call} (h : CallPlaced source c) :
    Rowed source c.gap.start c.stop (upgradeCall targets c) := by
  rw [upgradeCall_eq]
  exact rowed_editCall h h.name h.name_start h.name_stop

theorem rowed_removeFromCall {c : Call} (h : CallPlaced source c) :
    Rowed source c.gap.start c.stop (removeFromCall targets c) := by
  rw [removeFromCall_eq]
  exact rowed_editCall h ⟨Nat.le_of_lt h.lt, h.start, h.stop⟩ (Nat.le_refl _) (Nat.le_refl _)

theorem Chained.mem {ds : List (Nat × Nat)} (h : Chained l i ds) {d : Nat × Nat} (hd : d ∈ ds)
    (hn : l.Nested) : IsCall l d.1 d.2 ∧ i ≤ d.1 := by
  induction h with
  | stop => cases hd
  | call hcall rest ih =>
    obtain rfl | hd := List.mem_cons.mp hd
    · exact ⟨hcall, Nat.le_refl _⟩
    · obtain ⟨hcall', hle⟩ := ih hd
      have := hcall.lt hn
      exact ⟨hcall', by omega⟩

/-- The calls of a chain stand one after the other. -/
theorem Chained.order {ds : List (Nat × Nat)} (h : Chained l i ds) (hn : l.Nested) :
    ds.Pairwise fun d e => d.2 < e.1 := by
  induction h with
  | stop => exact .nil
  | call hcall rest ih => exact List.pairwise_cons.mpr ⟨fun e he => (rest.mem he hn).2, ih⟩

/-- Where the calls of a test stand that declare links, and where its declarations end. -/
structure LinksPlaced (source : Text) (t : Test) : Prop where
  placed : ∀ c ∈ t.linkCalls, CallPlaced source c
  order : t.linkCalls.Pairwise fun c d => c.stop ≤ d.gap.start
  le : ∀ c ∈ t.linkCalls, c.stop ≤ t.case.declarationPoint
  point : Text.isBoundary t.case.declarationPoint source = true

/-- The calls of a test that declare links are some of those chained to it. -/
theorem Sited.exists_links {file : File} {t : Test} {n o c : Nat} {keyword : Keyword}
    (hsited : Sited source l file n o c keyword t) :
    ∃ ds, Chained l (c + 1) ds ∧
      t.linkCalls = (ds.map fun d => callOf l source file.imports d.1 d.2).filter Call.isLink := by
  obtain ⟨groups, tok, -, rfl⟩ := hsited.test
  obtain ⟨ds, hchained, hchain⟩ := exists_chained (nested_of_tokenize hsited.read) (c + 1)
  refine ⟨ds, hchained, ?_⟩
  rw [Test.linkCalls, testAt, hchain source file.imports l.tokens.size (by omega)]

/-- A call that declares links stands after the parentheses of its test. -/
theorem Sited.exists_callOf {file : File} {t : Test} {n o c : Nat} {keyword : Keyword}
    (hsited : Sited source l file n o c keyword t) {call : Call} (h : call ∈ t.linkCalls) :
    ∃ i close, 0 < i ∧ IsCall l i close ∧ call = callOf l source file.imports i close := by
  obtain ⟨ds, hchained, hlinks⟩ := hsited.exists_links
  rw [hlinks] at h
  obtain ⟨d, hd, rfl⟩ := List.mem_map.mp (List.mem_filter.mp h).1
  obtain ⟨hcall, hle⟩ := hchained.mem hd (nested_of_tokenize hsited.read)
  exact ⟨d.1, d.2, by omega, hcall, rfl⟩

theorem linksPlaced {file : File} {t : Test} (hread : File.read source = .ok file)
    (ht : t ∈ file.tests) : LinksPlaced source t := by
  obtain ⟨n, hget⟩ := List.getElem?_of_mem ht
  obtain ⟨l, o, c, keyword, hsited⟩ := exists_sited hread hget
  have hl := hsited.read
  have hn := nested_of_tokenize hl
  obtain ⟨-, hopen, hpartner⟩ := siteAt_eq_some hsited.site
  obtain ⟨ds, hchained, hlinks⟩ := hsited.exists_links
  have hclose := Array.getElem?_eq_getElem (hn.lt_size hpartner)
  have hpoint : t.case.declarationPoint = (t.linkCalls.getLast?.map Call.stop).getD (l.stopAt c) := by
    obtain ⟨groups, tok, -, rfl⟩ := hsited.test
    rfl
  have hplaced : ∀ c ∈ t.linkCalls, CallPlaced source c := by
    intro call hcall
    obtain ⟨i, close, hi, h, rfl⟩ := hsited.exists_callOf hcall
    exact callPlaced hl hi h
  have horder : t.linkCalls.Pairwise fun c d => c.stop ≤ d.gap.start := by
    rw [hlinks]
    refine List.Pairwise.filter _ (List.pairwise_map.mpr ((hchained.order hn).imp_of_mem ?_))
    intro d e hd he hde
    have he' := (hchained.mem he hn).1
    have hsize := hn.lt_size he'.partner
    have hlt := he'.lt hn
    have hstart : (callOf l source file.imports e.1 e.2).gap.start = l.stopAt (e.1 - 1) := by
      simp only [callOf, if_neg (show e.1 ≠ 0 by omega)]
    rw [hstart]
    exact stopAt_mono hl (by omega) (by omega)
  refine ⟨hplaced, horder, fun d hd => ?_, ?_⟩
  · cases hlast : t.linkCalls.getLast? with
    | none =>
      rw [List.getLast?_eq_none_iff.mp hlast] at hd
      cases hd
    | some e =>
      obtain ⟨before, hsplit⟩ := List.getLast?_eq_some_iff.mp hlast
      rw [hpoint, hlast]
      dsimp only [Option.map_some, Option.getD_some]
      rw [hsplit] at hd horder
      obtain hd | hd := List.mem_append.mp hd
      · have hbefore := (List.pairwise_append.mp horder).2.2 d hd e (by simp)
        have := (hplaced e (by rw [hsplit]; simp)).lt
        omega
      · obtain rfl := List.mem_singleton.mp hd
        exact Nat.le_refl _
  · rw [hpoint]
    cases hlast : t.linkCalls.getLast? with
    | none =>
      dsimp only [Option.map_none, Option.getD_none]
      rw [stopAt_eq hclose]
      exact (token_fits hl hclose).stop
    | some e => exact (hplaced e (List.mem_of_getLast? hlast)).stop

/-- The changes that add links to a test stay apart. -/
theorem apart_injectSplices {file : File} {t : Test} (hread : File.read source = .ok file)
    (ht : t ∈ file.tests) (targets : List Target) (covers : Bool) :
    Apart source (injectSplices source file t targets covers) := by
  obtain ⟨hplaced, horder, hle, hpoint⟩ := linksPlaced hread ht
  have hedits : Rowed source 0 t.case.declarationPoint
      (t.linkCalls.flatMap (upgradeCall (upgraded t targets.eraseDups covers))) :=
    .flatMap (fun c hc => rowed_upgradeCall (hplaced c hc)) horder (fun _ _ => Nat.zero_le _) hle
  unfold injectSplices
  dsimp only
  split
  · rw [List.append_nil]
    exact hedits.apart
  · have hinsert : ∀ text, Rowed source t.case.declarationPoint t.case.declarationPoint
        [.insert t.case.declarationPoint text] := fun text =>
      Rowed.single (a := .insert t.case.declarationPoint text) (Span.Fits.point hpoint)
    exact (hedits.append (hinsert _) (Nat.zero_le _) (Nat.le_refl _) (Nat.le_refl _)).apart

/-- The changes that take links out of a test stay apart. -/
theorem apart_removeSplices {file : File} {t : Test} (hread : File.read source = .ok file)
    (ht : t ∈ file.tests) (targets : List Target) :
    Apart source (t.linkCalls.flatMap (removeFromCall targets)) := by
  obtain ⟨hplaced, horder, hle, -⟩ := linksPlaced hread ht
  have hedits : Rowed source 0 t.case.declarationPoint (t.linkCalls.flatMap (removeFromCall targets)) :=
    .flatMap (fun c hc => rowed_removeFromCall (hplaced c hc)) horder (fun _ _ => Nat.zero_le _) hle
  exact hedits.apart

/-- A test that is found again is one of those in the source. -/
theorem of_locate {r : TestCase} {file : File} {t : Test} (h : locate source r = .ok (file, t)) :
    File.read source = .ok file ∧ t ∈ file.tests := by
  unfold locate at h
  cases hread : File.read source with
  | error e => rw [hread] at h; cases h
  | ok f =>
    rw [hread] at h
    dsimp only [Except.mapError, bind, Except.bind] at h
    split at h
    · rename_i u hu
      cases h
      obtain ⟨n, -, hn⟩ := Option.bind_eq_some_iff.mp hu
      exact ⟨rfl, List.mem_of_getElem? hn⟩
    · cases h

theorem locate_ne_conflict (source : Text) (r : TestCase) (e : SpliceError) :
    locate source r ≠ .error (.conflict e) := by
  unfold locate
  cases File.read source with
  | error e => simp [Except.mapError, bind, Except.bind]
  | ok f =>
    dsimp only [Except.mapError, bind, Except.bind]
    split <;> simp [pure, Except.pure, throw, throwThe, MonadExceptOf.throw]

theorem inject_ne_conflict (source : Text) (r : TestCase) (names : List Text) (covers : Bool)
    (e : SpliceError) : inject source r names covers ≠ .error (.conflict e) := by
  refine bind_ne_conflict (locate_ne_conflict source r e) fun found hlocate => ?_
  obtain ⟨hread, ht⟩ := of_locate hlocate
  exact bind_ne_conflict (parseTargets_ne_conflict names e) fun targets _ =>
    applyEdit_ne_conflict (apart_injectSplices hread ht targets covers) e

theorem remove_ne_conflict (source : Text) (r : TestCase) (names : List Text) (e : SpliceError) :
    remove source r names ≠ .error (.conflict e) := by
  refine bind_ne_conflict (locate_ne_conflict source r e) fun found hlocate => ?_
  obtain ⟨hread, ht⟩ := of_locate hlocate
  exact bind_ne_conflict (parseTargets_ne_conflict names e) fun targets _ =>
    applyEdit_ne_conflict (apart_removeSplices hread ht targets) e

end FluentChain

/-! ## §3 Attribute groups that are added -/

/-- Splices that put texts in at one offset stay apart. -/
theorem apart_of_inserts {splices : List Splice} {n : Nat}
    (hn : Text.isBoundary n source = true) (h : ∀ s ∈ splices, s.span = Span.point n) :
    Apart source splices := by
  refine ⟨fun s hs => h s hs ▸ Span.Fits.point hn, ?_⟩
  refine List.pairwise_of_forall_mem_list fun s hs t ht => ?_
  rw [Clear, h s hs, h t ht]
  exact .inl (Nat.le_refl n)

namespace Production

open Source Source.TokenSequence

/-- The changes that name tests of a method stay apart. -/
theorem apart_addLines {l : TokenSequence} {m : Source.Method} (hl : tokenize source = .ok l)
    (hm : MethodAt l source m) {groups : List AttributeGroup} (hgroups : ∀ g ∈ groups, g ∈ m.attributes)
    (references : List BackReference) :
    Apart source (references.map fun r =>
      Edit.addLine source (groups.map AttributeGroup.span) m.headStart (render r)) := by
  obtain ⟨k, u, hu, hstart⟩ := hm.headStart
  have hanchors : ∀ s ∈ groups.map AttributeGroup.span, s.Fits source := fun s hs => by
    obtain ⟨g, hg, rfl⟩ := List.mem_map.mp hs
    obtain ⟨o, c, hat⟩ := hm.groups g (hgroups g hg)
    exact hat.covers.fits hl
  obtain ⟨n, hn, -, hline⟩ := Edit.exists_addPoint hanchors
    (hstart ▸ (token_fits hl hu).start : Text.isBoundary m.headStart source = true)
  refine apart_of_inserts hn fun s hs => ?_
  obtain ⟨r, -, rfl⟩ := List.mem_map.mp hs
  obtain ⟨text, htext⟩ := hline (render r)
  rw [htext]
  rfl

theorem mem_of_findMethod {imports : Imports} {classes : List DeclaredClass} {className name : Text}
    {m : Source.Method} (h : findMethod imports classes className name = some m) :
    ∃ d ∈ classes, m ∈ d.methods := by
  obtain ⟨d, hd, hm⟩ := List.mem_flatMap.mp (List.mem_of_find?_eq_some h)
  exact ⟨d, (List.mem_filter.mp hd).1, hm⟩

theorem inject_ne_conflict (source : Text) (target : Target) (tests : List BackReference)
    (e : SpliceError) : inject source target tests ≠ .error (.conflict e) := by
  unfold inject
  split
  · rename_i method _
    refine bind_ne_conflict ?_ fun l hl => ?_
    · cases tokenize source <;> simp [Except.mapError]
    · have hl : tokenize source = .ok l := by
        cases h : tokenize source with
        | error d => rw [h] at hl; cases hl
        | ok l' => rw [h] at hl; exact congrArg Except.ok (Except.ok.inj hl)
      dsimp only
      split
      · rename_i m hfind
        obtain ⟨d, hd, hm⟩ := mem_of_findMethod hfind
        refine applyEdit_ne_conflict
          (apart_addLines hl (methodAt_of_mem_classes hl hd hm) (fun g hg => ?_) _) e
        split at hg
        · exact hg
        · exact (List.mem_filter.mp hg).1
      · simp [throw, throwThe, MonadExceptOf.throw]
  · simp [throw, throwThe, MonadExceptOf.throw]

end Production

namespace AttributeList

open Source Source.TokenSequence

variable {l : TokenSequence} {imports : Imports} {m : Method} {a b : Attribute} {g : AttributeGroup}
  {targets : List Target}

/-- Where an attribute stands, and where its renaming does. -/
structure AttributePlaced (source : Text) (g : AttributeGroup) (a : Attribute) : Prop where
  lt : a.span.start < a.span.stop
  fits : a.span.Fits source
  start : g.span.start ≤ a.span.start
  stop : a.span.stop ≤ g.span.stop
  name_lt : a.nameSpan.start < a.nameSpan.stop
  upgrade_fits : (upgrade a).span.Fits source
  upgrade_start : a.span.start ≤ (upgrade a).span.start
  upgrade_stop : (upgrade a).span.stop ≤ a.span.stop

/-- The part of a name before its last segment. -/
theorem exists_shortName (a : Attribute) : ∃ lead, a.name = lead ++ a.shortName ∧
    (lead = [] ∨ lead.getLast? = some '\\') := by
  unfold Attribute.shortName Text.lastSegment
  split
  · rename_i l r hsplit
    exact ⟨l ++ ['\\'], by simpa using (Text.splitLast_eq_some hsplit).1, .inr (by simp)⟩
  · exact ⟨[], rfl, .inl rfl⟩

theorem attributePlaced (hl : tokenize source = .ok l) {o c : Nat} (hg : GroupAt l source g o c)
    (ha : a ∈ g.attributes) : AttributePlaced source g a := by
  have hn := nested_of_tokenize hl
  rw [hg.attributes] at ha
  obtain ⟨k, t, hk, hkc, ht, rfl⟩ := exists_of_mem_attributesFrom ha
  obtain ⟨j, hcovers, hjc, -⟩ := covers_attributeAt source hn hg.partner hk hkc ht
  obtain ⟨hname, hspan⟩ := attributeAt_name l source k t
  obtain ⟨lead, hlead, -⟩ := exists_shortName (AttributeGroup.attributeAt l source k t).1
  generalize (AttributeGroup.attributeAt l source k t).1 = a at hcovers hname hspan hlead
  obtain ⟨x, y, hsource, hx, hstop⟩ := exists_token_parts hl ht
  have hwithin := hg.covers.within hl hcovers (by omega) (by omega)
  have hname' := hcovers.within hl (.token ht) (Nat.le_refl k) hcovers.le
  have hwidth : Text.width t.text = Text.width lead + Text.width a.shortName := by
    rw [← hname, hlead, Text.width_append]
  have hupgrade : (upgrade a).span = ⟨Text.width (x ++ lead), t.span.stop⟩ := by
    simp only [upgrade, Splice.span, hspan, Text.width_append, Span.mk.injEq, and_true]
    omega
  refine ⟨hcovers.lt hl, hcovers.fits hl, hwithin.1, hwithin.2, by rw [hspan]; exact token_lt hl ht, ?_, ?_, ?_⟩
  · rw [hupgrade]
    refine ⟨?_, ?_, (token_fits hl ht).stop⟩
    · simp only [Text.width_append]
      omega
    · refine Text.isBoundary_iff.mpr ⟨x ++ lead, a.shortName ++ y, ?_, rfl⟩
      rw [hsource, ← hname, hlead]
      simp
  · rw [hupgrade]
    simp only [Text.width_append]
    omega
  · rw [hupgrade]
    exact hname'.2

/-- The attributes of a group stand one after the other. -/
theorem attributes_order (hl : tokenize source = .ok l) {o c : Nat} (hg : GroupAt l source g o c) :
    g.attributes.Pairwise fun a b => a.span.stop ≤ b.span.start :=
  List.pairwise_map.mp ((hg.runs (nested_of_tokenize hl)).order hl)

/-- The groups of a method stand one after the other. -/
theorem groups_order (hl : tokenize source = .ok l) (hm : MethodAt l source m) :
    m.attributes.Pairwise fun g d => g.span.stop ≤ d.span.start := by
  obtain ⟨hi, hruns⟩ := hm.runs
  exact List.pairwise_map.mp (hruns.order hl)

theorem mem_linkAttributes (h : a ∈ linkAttributes m) :
    ∃ g ∈ groupsWithLinks m, g ∈ m.attributes ∧ a ∈ g.attributes := by
  obtain ⟨g, hg, ha⟩ := List.mem_flatMap.mp h
  exact ⟨g, hg, (List.mem_filter.mp hg).1, (List.mem_filter.mp ha).1⟩

/-- The attributes that link a method stand one after the other. -/
theorem linkAttributes_order (hl : tokenize source = .ok l) (hm : MethodAt l source m) :
    (linkAttributes m).Pairwise fun a b => a.span.stop ≤ b.span.start := by
  refine List.pairwise_flatMap.mpr ⟨fun g hg => ?_, ?_⟩
  · obtain ⟨o, c, hat⟩ := hm.groups g (List.mem_filter.mp hg).1
    exact (attributes_order hl hat).filter _
  · refine ((groups_order hl hm).filter _).imp_of_mem fun {g d} hg hd hgd a ha b hb => ?_
    obtain ⟨o, c, hat⟩ := hm.groups g (List.mem_filter.mp hg).1
    obtain ⟨o', c', hat'⟩ := hm.groups d (List.mem_filter.mp hd).1
    have := (attributePlaced hl hat (List.mem_filter.mp ha).1).stop
    have := (attributePlaced hl hat' (List.mem_filter.mp hb).1).start
    omega

/-- The renamings of two attributes are clear of each other. -/
theorem clear_upgrade (hl : tokenize source = .ok l) (hm : MethodAt l source m)
    (ha : a ∈ linkAttributes m) (hb : b ∈ linkAttributes m) (hne : a ≠ b) :
    Clear (upgrade a) (upgrade b) := by
  obtain ⟨g, -, hg, hag⟩ := mem_linkAttributes ha
  obtain ⟨d, -, hd, hbd⟩ := mem_linkAttributes hb
  obtain ⟨o, c, hat⟩ := hm.groups g hg
  obtain ⟨o', c', hat'⟩ := hm.groups d hd
  have hpa := attributePlaced hl hat hag
  have hpb := attributePlaced hl hat' hbd
  have := hpa.upgrade_start
  have := hpa.upgrade_stop
  have := hpb.upgrade_start
  have := hpb.upgrade_stop
  have hspans : a.span.stop ≤ b.span.start ∨ b.span.stop ≤ a.span.start := by
    obtain ⟨before, after, hsplit⟩ := List.append_of_mem ha
    have horder := linkAttributes_order hl hm
    rw [hsplit] at hb horder
    obtain ⟨-, hafter, hbefore⟩ := List.pairwise_append.mp horder
    obtain hb | hb := List.mem_append.mp hb
    · exact .inr (hbefore b hb a (by simp))
    · obtain rfl | hb := List.mem_cons.mp hb
      · exact absurd rfl hne
      · exact .inl ((List.pairwise_cons.mp hafter).1 b hb)
  unfold Clear
  omega

/-- What adding one link comes to: a line at one offset, or the renaming of an attribute that
declares it. -/
theorem of_mem_injectOne {covers : Bool} {target : Target} {s : Splice}
    (h : s ∈ injectOne source imports m covers target) :
    injectOne source imports m covers target = [s] ∧
      ((∃ text, s = Edit.addLine source (anchors m) m.headStart text) ∨
        ∃ a ∈ linkAttributes m, a.target imports = some target ∧ s = upgrade a) := by
  unfold injectOne at h ⊢
  split at h
  · obtain rfl := List.mem_singleton.mp h
    exact ⟨rfl, .inl ⟨_, rfl⟩⟩
  · rename_i first rest hsome
    split at h
    · rename_i hcond
      obtain rfl := List.mem_singleton.mp h
      have hmem : first ∈ (linkAttributes m).filter fun a => a.target imports = some target := by
        rw [hsome]
        simp
      obtain ⟨hfirst, htarget⟩ := List.mem_filter.mp hmem
      exact ⟨if_pos hcond, .inr ⟨first, hfirst, of_decide_eq_true htarget, rfl⟩⟩
    · cases h

/-- The offset at which links are added is not before the end of an attribute that links the
method. -/
theorem exists_addPoint (hl : tokenize source = .ok l) (hm : MethodAt l source m) :
    ∃ n, Text.isBoundary n source = true ∧ (∀ a ∈ linkAttributes m, a.span.stop ≤ n) ∧
      ∀ text, (Edit.addLine source (anchors m) m.headStart text).span = Span.point n := by
  obtain ⟨k, u, hu, hstart⟩ := hm.headStart
  have hanchors : ∀ s ∈ anchors m, s.Fits source := fun s hs => by
    obtain ⟨g, hg, rfl⟩ := List.mem_map.mp hs
    have hg : g ∈ m.attributes := by
      split at hg
      · exact hg
      · exact (List.mem_filter.mp hg).1
    obtain ⟨o, c, hat⟩ := hm.groups g hg
    exact hat.covers.fits hl
  obtain ⟨n, hn, hlast, hline⟩ := Edit.exists_addPoint hanchors
    (hstart ▸ (token_fits hl hu).start : Text.isBoundary m.headStart source = true)
  refine ⟨n, hn, fun a ha => ?_, fun text => ?_⟩
  · obtain ⟨g, hg, hgm, hag⟩ := mem_linkAttributes ha
    obtain ⟨o, c, hat⟩ := hm.groups g hgm
    have hin := (attributePlaced hl hat hag).stop
    have hne : (groupsWithLinks m).isEmpty = false := by
      rw [List.isEmpty_eq_false_iff]
      exact List.ne_nil_of_mem hg
    obtain ⟨last, hgetLast⟩ := Option.isSome_iff_exists.mp
      (List.getLast?_isSome.mpr (List.ne_nil_of_mem hg))
    have hafter : last.span.stop ≤ n := hlast last.span (by
      rw [anchors, hne, List.getLast?_map]
      simp [hgetLast])
    obtain ⟨before, hsplit⟩ := List.getLast?_eq_some_iff.mp hgetLast
    have horder := (groups_order hl hm).filter AttributeGroup.holdsLink
    rw [show m.attributes.filter AttributeGroup.holdsLink = _ from hsplit] at horder
    rw [hsplit] at hg
    obtain hg | hg := List.mem_append.mp hg
    · have := (List.pairwise_append.mp horder).2.2 g hg last (by simp)
      have hlastmem : last ∈ m.attributes :=
        (List.mem_filter.mp (List.mem_of_getLast? hgetLast)).1
      obtain ⟨o', c', hat'⟩ := hm.groups last hlastmem
      have := hat'.covers.lt hl
      omega
    · obtain rfl := List.mem_singleton.mp hg
      omega
  · obtain ⟨line, hline⟩ := hline text
    rw [hline]
    rfl

/-- The changes that add links to a test stay apart. -/
theorem apart_injectSplices (hl : tokenize source = .ok l) (hm : MethodAt l source m)
    (targets : List Target) (covers : Bool) :
    Apart source (targets.eraseDups.flatMap (injectOne source imports m covers)) := by
  obtain ⟨n, hn, hafter, hline⟩ := exists_addPoint hl hm
  refine ⟨fun s hs => ?_, List.pairwise_flatMap.mpr ⟨fun target _ => ?_, ?_⟩⟩
  · obtain ⟨target, -, hs⟩ := List.mem_flatMap.mp hs
    obtain ⟨-, ⟨text, rfl⟩ | ⟨a, ha, -, rfl⟩⟩ := of_mem_injectOne hs
    · rw [hline]
      exact .point hn
    · obtain ⟨g, -, hg, hag⟩ := mem_linkAttributes ha
      obtain ⟨o, c, hat⟩ := hm.groups g hg
      exact (attributePlaced hl hat hag).upgrade_fits
  · cases hone : injectOne source imports m covers target with
    | nil => exact .nil
    | cons s rest =>
      obtain ⟨hsingle, -⟩ := of_mem_injectOne (s := s) (by rw [hone]; simp)
      rw [← hone, hsingle]
      exact List.pairwise_singleton _ _
  · refine (FluentChain.nodup_eraseDups _ targets (Nat.le_refl _)).imp fun {v w} hvw s hs t ht => ?_
    have hbefore : ∀ a ∈ linkAttributes m, ∀ text,
        Clear (upgrade a) (Edit.addLine source (anchors m) m.headStart text) := by
      intro a ha text
      obtain ⟨g, -, hg, hag⟩ := mem_linkAttributes ha
      obtain ⟨o, c, hat⟩ := hm.groups g hg
      have := (attributePlaced hl hat hag).upgrade_stop
      have := hafter a ha
      rw [Clear, hline]
      exact .inl (by simp only [Span.point]; omega)
    obtain ⟨-, ⟨text, rfl⟩ | ⟨a, ha, hv, rfl⟩⟩ := of_mem_injectOne hs
    · obtain ⟨-, ⟨text', rfl⟩ | ⟨b, hb, -, rfl⟩⟩ := of_mem_injectOne ht
      · rw [Clear, hline, hline]
        exact .inl (Nat.le_refl n)
      · exact (hbefore b hb text).symm
    · obtain ⟨-, ⟨text', rfl⟩ | ⟨b, hb, hw, rfl⟩⟩ := of_mem_injectOne ht
      · exact hbefore a ha text'
      · refine clear_upgrade hl hm ha hb fun hab => hvw ?_
        subst hab
        exact Option.some.inj (hv.symm.trans hw)

/-- A test that is found again is a method of the source. -/
theorem of_locate {r : TestCase} {file : File} {t : Test} (h : locate source r = .ok (file, t)) :
    ∃ l, tokenize source = .ok l ∧ MethodAt l source t.method := by
  unfold locate at h
  cases hread : File.read source with
  | error e => rw [hread] at h; cases h
  | ok f =>
    rw [hread] at h
    dsimp only [Except.mapError, bind, Except.bind] at h
    split at h
    · rename_i u hu
      cases h
      obtain ⟨n, -, hn⟩ := Option.bind_eq_some_iff.mp hu
      have ht := List.mem_of_getElem? hn
      unfold File.read at hread
      cases hl : tokenize source with
      | error e => rw [hl] at hread; cases hread
      | ok l =>
        rw [hl] at hread
        obtain rfl := Except.ok.inj hread
        obtain ⟨d, hd, ht⟩ := List.mem_flatMap.mp ht
        obtain ⟨m, hm, rfl⟩ := List.mem_map.mp ht
        exact ⟨l, rfl, methodAt_of_mem_classes hl hd (List.mem_filter.mp hm).1⟩
    · cases h

theorem locate_ne_conflict (source : Text) (r : TestCase) (e : SpliceError) :
    locate source r ≠ .error (.conflict e) := by
  unfold locate
  cases File.read source with
  | error e => simp [Except.mapError, bind, Except.bind]
  | ok f =>
    dsimp only [Except.mapError, bind, Except.bind]
    split <;> simp [pure, Except.pure, throw, throwThe, MonadExceptOf.throw]

theorem inject_ne_conflict (source : Text) (r : TestCase) (names : List Text) (covers : Bool)
    (e : SpliceError) : inject source r names covers ≠ .error (.conflict e) := by
  refine bind_ne_conflict (locate_ne_conflict source r e) fun found hlocate => ?_
  obtain ⟨l, hl, hm⟩ := of_locate hlocate
  exact bind_ne_conflict (parseTargets_ne_conflict names e) fun targets _ =>
    applyEdit_ne_conflict (apart_injectSplices hl hm targets covers) e

/-! ## §4 Attribute groups that are taken out -/

/-- A group is taken out whole: it has attributes, and all of them declare links to the targets. -/
def Whole (imports : Imports) (targets : List Target) (g : AttributeGroup) : Prop :=
  (marks imports targets g).any id = true ∧ (marks imports targets g).all id = true

instance (imports : Imports) (targets : List Target) (g : AttributeGroup) :
    Decidable (Whole imports targets g) := inferInstanceAs (Decidable (_ ∧ _))

/-- Two groups of a method, the first above the second, are both taken out whole, and each claims
the blanks between them. -/
def Contends (source : Text) (imports : Imports) (targets : List Target) (m : Method) : Prop :=
  ∃ g d, [g, d].Sublist (groupsWithLinks m) ∧ Whole imports targets g ∧ Whole imports targets d ∧
    Edit.Contended source g.span d.span

theorem not_contends_iff : ¬ Contends source imports targets m ↔
    (groupsWithLinks m).Pairwise fun g d => ¬ (Whole imports targets g ∧ Whole imports targets d ∧
      Edit.Contended source g.span d.span) := by
  rw [List.pairwise_iff_forall_sublist]
  exact ⟨fun h g d hsub hrest => h ⟨g, d, hsub, hrest⟩, fun h ⟨g, d, hsub, hrest⟩ => h hsub hrest⟩

instance (source : Text) (imports : Imports) (targets : List Target) (m : Method) :
    Decidable (Contends source imports targets m) :=
  decidable_of_iff _ ((not_congr not_contends_iff.symm).trans Classical.not_not)

theorem removeFromGroup_of_whole (h : Whole imports targets g) :
    removeFromGroup source imports targets g = [Edit.takeOut source g.span] := by
  rw [removeFromGroup, if_pos h.1, if_pos h.2]

variable (imports targets) in
/-- What is taken out of a group that stays lies in it. -/
theorem rowed_removeFromGroup (hl : tokenize source = .ok l) {o c : Nat} (hg : GroupAt l source g o c)
    (h : ¬ Whole imports targets g) :
    Rowed source g.span.start g.span.stop (removeFromGroup source imports targets g) ∧
      ∀ s ∈ removeFromGroup source imports targets g, s.span.start < s.span.stop := by
  unfold removeFromGroup
  dsimp only
  split
  · rename_i hany
    rw [if_neg fun hall => h ⟨hany, hall⟩]
    have hplaced : ∀ s ∈ g.attributes.map Attribute.span, ∃ a, AttributePlaced source g a ∧ a.span = s :=
      fun s hs => by
        obtain ⟨a, ha, rfl⟩ := List.mem_map.mp hs
        exact ⟨a, attributePlaced hl hg ha, rfl⟩
    refine Edit.rowed_dropItems _ (fun s hs => ?_) (fun s hs => ?_)
      (List.pairwise_map.mpr (attributes_order hl hg)) fun s hs => ?_
    all_goals obtain ⟨a, ha, rfl⟩ := hplaced s hs
    · exact ha.fits
    · exact ha.lt
    · exact ⟨ha.start, ha.stop⟩
  · exact ⟨.nil _ _ _, by simp⟩

/-- What is taken out for one group fits, takes bytes out, and keeps clear of itself. -/
theorem removeFromGroup_holds (hl : tokenize source = .ok l) {o c : Nat} (hg : GroupAt l source g o c) :
    (∀ s ∈ removeFromGroup source imports targets g, s.span.Fits source ∧ s.span.start < s.span.stop) ∧
      (removeFromGroup source imports targets g).Pairwise Clear := by
  by_cases h : Whole imports targets g
  · rw [removeFromGroup_of_whole h]
    obtain ⟨hfits, hstart, hstop⟩ := Edit.takeOut_holds (hg.framed hl)
    have := hg.covers.lt hl
    refine ⟨fun s hs => ?_, List.pairwise_singleton _ _⟩
    obtain rfl := List.mem_singleton.mp hs
    exact ⟨hfits, by omega⟩
  · obtain ⟨hrowed, hlt⟩ := rowed_removeFromGroup imports targets hl hg h
    exact ⟨fun s hs => ⟨hrowed.fits s hs, hlt s hs⟩, hrowed.apart.clear⟩

/-- What is taken out for two groups keeps clear of each other unless they contend for blanks. -/
theorem clear_removeFromGroup_iff (hl : tokenize source = .ok l) {d : AttributeGroup} {o c o' c' : Nat}
    (hg : GroupAt l source g o c) (hd : GroupAt l source d o' c') (hgd : g.span.stop ≤ d.span.start) :
    (∀ s ∈ removeFromGroup source imports targets g,
      ∀ t ∈ removeFromGroup source imports targets d, Clear s t) ↔
    ¬ (Whole imports targets g ∧ Whole imports targets d ∧ Edit.Contended source g.span d.span) := by
  have hframed := hg.framed hl
  have hframed' := hd.framed hl
  by_cases hwhole : Whole imports targets g
  · have hstop := Edit.takeOut_stop_le hframed hframed' hgd
    obtain ⟨-, htake, -⟩ := Edit.takeOut_holds hframed
    rw [removeFromGroup_of_whole hwhole]
    by_cases hwhole' : Whole imports targets d
    · obtain ⟨-, -, htake'⟩ := Edit.takeOut_holds hframed'
      have hlt := hg.covers.lt hl
      have hlt' := hd.covers.lt hl
      rw [removeFromGroup_of_whole hwhole']
      simp only [List.mem_singleton, forall_eq, hwhole, hwhole', true_and]
      rw [← Edit.takeOut_before_iff hframed hframed' hgd]
      refine ⟨fun h => ?_, Or.inl⟩
      unfold Clear at h
      omega
    · obtain ⟨hrowed, -⟩ := rowed_removeFromGroup imports targets hl hd hwhole'
      refine iff_of_true (fun s hs t ht => ?_) fun h => hwhole' h.2.1
      obtain rfl := List.mem_singleton.mp hs
      have := hrowed.within t ht
      exact .inl (by omega)
  · obtain ⟨hrowed, -⟩ := rowed_removeFromGroup imports targets hl hg hwhole
    refine iff_of_true (fun s hs t ht => ?_) fun h => hwhole h.1
    have hin := hrowed.within s hs
    by_cases hwhole' : Whole imports targets d
    · rw [removeFromGroup_of_whole hwhole'] at ht
      obtain rfl := List.mem_singleton.mp ht
      have := Edit.le_takeOut_start hframed hframed' hgd
      exact .inl (by omega)
    · obtain ⟨hrowed', -⟩ := rowed_removeFromGroup imports targets hl hd hwhole'
      have := hrowed'.within t ht
      exact .inl (by omega)

/-- The changes that take links out of a method keep clear of each other unless two groups contend
for blanks. -/
theorem clear_removeSplices_iff (hl : tokenize source = .ok l) (hm : MethodAt l source m) :
    ((groupsWithLinks m).flatMap (removeFromGroup source imports targets)).Pairwise Clear ↔
      ¬ Contends source imports targets m := by
  have hgroups : ∀ g ∈ groupsWithLinks m, ∃ o c, GroupAt l source g o c :=
    fun g hg => hm.groups g (List.mem_filter.mp hg).1
  have horder := (groups_order hl hm).filter AttributeGroup.holdsLink
  have hiff : ∀ {g d}, [g, d].Sublist (groupsWithLinks m) →
      ((∀ s ∈ removeFromGroup source imports targets g,
        ∀ t ∈ removeFromGroup source imports targets d, Clear s t) ↔
      ¬ (Whole imports targets g ∧ Whole imports targets d ∧
        Edit.Contended source g.span d.span)) := by
    intro g d hsub
    obtain ⟨o, c, hg⟩ := hgroups g (hsub.subset (by simp))
    obtain ⟨o', c', hd⟩ := hgroups d (hsub.subset (by simp))
    exact clear_removeFromGroup_iff hl hg hd (List.pairwise_iff_forall_sublist.mp horder hsub)
  rw [not_contends_iff, List.pairwise_flatMap, List.pairwise_iff_forall_sublist (l := groupsWithLinks m),
    List.pairwise_iff_forall_sublist]
  constructor
  · rintro ⟨-, hclear⟩ g d hsub
    exact (hiff hsub).mp (hclear hsub)
  · intro h
    refine ⟨fun g hg => ?_, fun {g d} hsub => (hiff hsub).mpr (h hsub)⟩
    obtain ⟨o, c, hat⟩ := hgroups g hg
    exact (removeFromGroup_holds hl hat).2

theorem applyEdit_removeSplices_iff (hl : tokenize source = .ok l) (hm : MethodAt l source m) :
    (∃ e, applyEdit source ((groupsWithLinks m).flatMap (removeFromGroup source imports targets)) =
      .error (.conflict e)) ↔ Contends source imports targets m := by
  have hholds : ∀ s ∈ (groupsWithLinks m).flatMap (removeFromGroup source imports targets),
      s.span.Fits source ∧ s.span.start < s.span.stop := fun s hs => by
    obtain ⟨g, hg, hs⟩ := List.mem_flatMap.mp hs
    obtain ⟨o, c, hat⟩ := hm.groups g (List.mem_filter.mp hg).1
    exact (removeFromGroup_holds hl hat).1 s hs
  rw [applyEdit_eq_conflict_iff (fun s hs => (hholds s hs).1) fun s hs => (hholds s hs).2,
    clear_removeSplices_iff hl hm, Classical.not_not]

theorem remove_eq_conflict_iff (source : Text) (r : TestCase) (names : List Text) :
    (∃ e, remove source r names = .error (.conflict e)) ↔
      ∃ file t targets, locate source r = .ok (file, t) ∧ parseTargets names = .ok targets ∧
        Contends source file.imports targets t.method := by
  unfold remove
  cases hlocate : locate source r with
  | error d =>
    refine iff_of_false (fun ⟨e, h⟩ => ?_) (by simp)
    exact locate_ne_conflict source r e (hlocate.trans (congrArg _ (Except.error.inj h)))
  | ok found =>
    obtain ⟨file, t⟩ := found
    obtain ⟨l, hl, hm⟩ := of_locate hlocate
    cases hnames : parseTargets names with
    | error d =>
      refine iff_of_false (fun ⟨e, h⟩ => ?_) (by simp)
      exact parseTargets_ne_conflict names e (hnames.trans (congrArg _ (Except.error.inj h)))
    | ok targets =>
      refine (applyEdit_removeSplices_iff hl hm).trans ⟨fun h => ⟨file, t, targets, rfl, rfl, h⟩, ?_⟩
      rintro ⟨file', t', targets', hfound, htargets, h⟩
      obtain ⟨rfl, rfl⟩ := Prod.mk.inj (Except.ok.inj hfound)
      obtain rfl := Except.ok.inj htargets
      exact h

/-- The edit of the first test of a source that takes links out of it ends in a conflict. -/
def ConflictsFirst (source : Text) (names : List Text) : Prop :=
  ∃ r, (readTests source).toOption.bind List.head? = some r ∧
    ∃ e, remove source r names = .error (.conflict e)

/-- Links in two groups on one line cannot be taken out together. -/
theorem remove_conflicts : ConflictsFirst ("<?php\nclass T \x7b\n    #[Links(A::class)] #[Links(B::class)]\n" ++
    "    public function test_x() \x7b\x7d\n\x7d\n") ["A", "B"] := by
  generalize hsource : (_ ++ _ : Text) = source
  have hfound : (((readTests source).toOption.bind List.head?).bind fun r =>
      (locate source r).toOption.bind fun found => (parseTargets ["A", "B"]).toOption.filter fun targets =>
        Contends source found.1.imports targets found.2.method).isSome = true := by
    subst hsource
    decide +kernel
  obtain ⟨targets, htargets⟩ := Option.isSome_iff_exists.mp hfound
  obtain ⟨r, hr, h⟩ := Option.bind_eq_some_iff.mp htargets
  obtain ⟨⟨file, t⟩, hlocate, h⟩ := Option.bind_eq_some_iff.mp h
  obtain ⟨hnames, hcontends⟩ := Option.filter_eq_some_iff.mp h
  exact ⟨r, hr, (remove_eq_conflict_iff source r ["A", "B"]).mpr ⟨file, t, targets, eq_ok_of_toOption hlocate,
    eq_ok_of_toOption hnames, of_decide_eq_true hcontends⟩⟩

end AttributeList

/-! ## §5 Which edits conflict -/

/-- Adding links or back-references and taking links out of a chain never ends in a conflict, for
whatever text, case and targets, since the splices are apart. Taking links out of attribute groups
ends in one exactly when two groups contend for the blanks between them. -/
theorem conflict_iff (source : Text) :
    (∀ r names covers e, FluentChain.inject source r names covers ≠ .error (.conflict e)) ∧
    (∀ r names e, FluentChain.remove source r names ≠ .error (.conflict e)) ∧
    (∀ r names covers e, AttributeList.inject source r names covers ≠ .error (.conflict e)) ∧
    (∀ target tests e, Production.inject source target tests ≠ .error (.conflict e)) ∧
    ∀ r names, (∃ e, AttributeList.remove source r names = .error (.conflict e)) ↔
      ∃ file t targets, AttributeList.locate source r = .ok (file, t) ∧
        parseTargets names = .ok targets ∧
        AttributeList.Contends source file.imports targets t.method :=
  ⟨FluentChain.inject_ne_conflict source, FluentChain.remove_ne_conflict source,
    AttributeList.inject_ne_conflict source, Production.inject_ne_conflict source,
    AttributeList.remove_eq_conflict_iff source⟩

end Crosslink
