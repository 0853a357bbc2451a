import Crosslink.AttributeList.Editor
import Crosslink.Proofs.Composing
import Crosslink.Proofs.Engraving

/-!
# Groups that link tests

The group that is written for a link holds one attribute wherever it stands, given that its arguments can be
read, and declares that link if they are read back.

* §1 `written`, the attribute that is written for a link, `Spelled` and `ReadsBack`.
* §2 `exists_inscriptions`, the groups that are written for some links.
-/

namespace Crosslink.AttributeList

open Source Source.TokenSequence

variable {imports : Imports} {target : Target} {targets : List Target} {covers : Bool} {a b : Attribute}

/-! ## §1 The attribute that is written -/

/-- The argument that names a class. -/
def classArgument (imports : Imports) (target : Target) : Text :=
  imports.referenceTo target.className ++ "::class"

/-- The arguments that name a target. -/
def writtenArguments (imports : Imports) (target : Target) : List Text :=
  classArgument imports target :: (target.method.map quote).toList

/-- The name of the attribute that declares a link. -/
def linkName (covers : Bool) : Text := if covers then linksAndCoversName else linksName

/-- The attribute that is written for a link. -/
def written (imports : Imports) (target : Target) (covers : Bool) : Attribute where
  name := linkName covers
  nameSpan := Span.point 0
  span := Span.point 0
  arguments := (writtenArguments imports target).map fun text => ⟨Span.point 0, text⟩

/-- The attribute that is written for a link names its target where it is read back. -/
def ReadsBack (imports : Imports) (covers : Bool) (target : Target) : Prop :=
  (written imports target covers).target imports = some target

instance : Decidable (ReadsBack imports covers target) := inferInstanceAs (Decidable (_ = _))

/-- No class that is named where a link is written is called `use` or `namespace`. -/
def NamesNoStatement (imports : Imports) (target : Target) : Prop :=
  ∀ x ∈ (Expression.parse (classArgument imports target)).toOption, ∀ n ∈ x.names,
    Text.sameLetters n "use" = false ∧ Text.sameLetters n "namespace" = false

instance : Decidable (NamesNoStatement imports target) := inferInstanceAs (Decidable (∀ _ ∈ _, _))

/-- An attribute names the target that its arguments do. -/
theorem target_congr (h : a.arguments.map (fun x => Expression.parse x.text) =
    b.arguments.map fun x => Expression.parse x.text) : a.target imports = b.target imports := by
  simp only [Attribute.target, Attribute.classArguments, Attribute.gather_congr h]

/-- Each argument that is written for a link can be read. -/
def Spelled (imports : Imports) (target : Target) : Prop :=
  ∀ text ∈ writtenArguments imports target, (Expression.parse text).toOption.isSome = true

instance : Decidable (Spelled imports target) := inferInstanceAs (Decidable (∀ _ ∈ _, _))

theorem Spelled.exists_parse (h : Spelled imports target) {text : Text}
    (ht : text ∈ writtenArguments imports target) : ∃ x, Expression.parse text = .ok x := by
  obtain ⟨x, hx⟩ := Option.isSome_iff_exists.mp (h text ht)
  exact ⟨x, eq_ok_of_toOption hx⟩

theorem spelled_of_readsBack (h : ReadsBack imports covers target) : Spelled imports target := by
  intro text ht
  unfold ReadsBack Attribute.target Attribute.classArguments at h
  obtain ⟨x, hx, -⟩ := Option.bind_eq_some_iff.mp h
  obtain ⟨y, hy, -⟩ := Option.bind_eq_some_iff.mp hx
  obtain ⟨e, he⟩ := Attribute.parse_of_gather hy _ (List.mem_map_of_mem ht)
  exact Option.isSome_iff_exists.mpr ⟨e, by rw [he]; rfl⟩

theorem last_classArgument : ∀ c ∈ (classArgument imports target).getLast?, isAsciiBlank c = false := by
  intro c hc
  rw [classArgument, List.getLast?_append] at hc
  obtain rfl : 's' = c := Option.some.inj hc
  decide

/-! ## §2 The group that is written -/

/-- A group declares one link, to this target. -/
def Declares (imports : Imports) (covers : Bool) (target : Target) (g : AttributeGroup) : Prop :=
  ∃ a, g.attributes = [a] ∧ a.name = linkName covers ∧ a.target imports = some target

/-- A group holds the attribute that is written for a link, and no other. -/
def Bears (imports : Imports) (covers : Bool) (target : Target) (g : AttributeGroup) : Prop :=
  ∃ a, g.attributes = [a] ∧ a.name = linkName covers ∧
    a.arguments.map (fun x => Expression.parse x.text) = (writtenArguments imports target).map Expression.parse

/-- Where the attribute is read back the group declares the link. -/
theorem declares_of_bears (h : Bears imports covers target g) (hback : ReadsBack imports covers target) :
    Declares imports covers target g := by
  obtain ⟨a, hattributes, hname, harguments⟩ := h
  refine ⟨a, hattributes, hname, (target_congr (harguments.trans ?_)).trans hback⟩
  rw [written, List.map_map]
  rfl

theorem solid_linkName (covers : Bool) : Solid (linkName covers ++ ['('])
    [⟨.token .name, linkName covers⟩, ⟨.token .openParen, ['(']⟩] := by
  cases covers
  · exact solid_opening (c := 'L') (n := "inks".toList) (by decide)
      (show qualifiedLength "inks".toList = "inks".toList.length by decide)
  · exact solid_opening (c := 'L') (n := "inksAndCovers".toList) (by decide)
      (show qualifiedLength "inksAndCovers".toList = "inksAndCovers".toList.length by decide)

/-- The arguments that name a target, as text and as pieces. -/
theorem exists_arguments (h : Spelled imports target) : ∃ es : List ListEntry,
    Solid (classArgument imports target ++ (target.method.map fun m => ", " ++ quote m).getD [] ++ [')'])
      (es.flatMap ListEntry.pieces ++ [⟨.token .closeParen, [')']⟩]) ∧ Entries true es ∧
    (∀ e ∈ es, ∀ p ∈ e.pieces, p.kind = .blank ∨ ∃ kind, p.kind = .token kind) ∧
    es.map (fun e => Expression.parse (e.item.flatMap Piece.text)) =
      (writtenArguments imports target).map Expression.parse ∧
    ∀ w ∈ (es.flatMap ListEntry.pieces).filterMap wordOf, w.1 ∈ TokenKind.comma :: operandKinds ∧
      (BeginsStatement w →
        ∃ x ∈ (Expression.parse (classArgument imports target)).toOption, w.2 ∈ x.names) := by
  obtain ⟨x, hx⟩ := h.exists_parse (show classArgument imports target ∈ _ from List.mem_cons_self)
  -- what is known of the class, whatever comes after it
  have hclass : ∀ t, Breaks t → ∃ e : ListEntry, Cuts (classArgument imports target) e.pieces t ∧
      Commas e.sep ∧ Item e.item ∧ Expression.parse (e.item.flatMap Piece.text) =
        Expression.parse (classArgument imports target) ∧
      (∀ p ∈ e.pieces, p.kind = .blank ∨ ∃ kind, p.kind = .token kind) ∧
      ∀ w ∈ e.pieces.filterMap wordOf, w.1 ∈ TokenKind.comma :: operandKinds ∧ (BeginsStatement w →
        ∃ x ∈ (Expression.parse (classArgument imports target)).toOption, w.2 ∈ x.names) := by
    intro t ht
    obtain ⟨e, hcuts, hsep, hitem, hread, hwritten, hbare⟩ := exists_entry hx last_classArgument ht
    have hwords : e.pieces.filterMap wordOf = e.item.filterMap wordOf := by
      rw [ListEntry.pieces, List.filterMap_append, FluentChain.words_of_gap hsep,
        List.nil_append]
    have hcommas : Commas e.sep := by simp [Commas, hsep]
    refine ⟨e, hcuts, hcommas, hitem, hread.trans hx.symm, hbare, fun w hw => ?_⟩
    rw [hwords] at hw
    exact ⟨List.mem_cons_of_mem _ (hwritten.kinds w hw), fun hbegins =>
      ⟨x, by rw [hx]; rfl, hwritten.named hw hbegins⟩⟩
  cases hm : target.method with
  | none =>
    obtain ⟨e, hcuts, hcommas, hitem, hread, hbare, hwords⟩ := hclass [')'] (.cons (by decide) (by decide))
    refine ⟨[e], ?_, .cons hcommas (by simp) hitem (.nil _), by simpa using hbare, ?_, by simpa using hwords⟩
    · simpa using solid_of_closed (text_of_cuts hcuts) hcuts
    · simp [writtenArguments, hm, hread]
  | some m =>
    obtain ⟨e, hcuts, hcommas, hitem, hread, hbare, hwords⟩ :=
      hclass [',', ' '] (.cons (by decide) (by decide))
    obtain ⟨y, hy⟩ := h.exists_parse (show quote m ∈ _ by simp [writtenArguments, hm])
    have hcomma := Solid.of_boundary (w := [' ']) (b := []) (text_of_cuts hcuts) hcuts (by decide)
      (by decide) solid_comma
    have hsolid := hcomma.append ((solid_quote hy).append (solid_stop (c := ')') rfl))
    refine ⟨[e, quoteEntry m], ?_, .cons hcommas (by simp) hitem (entries_quoteEntry m), ?_, ?_, ?_⟩
    · simpa [ListEntry.pieces, quoteEntry] using hsolid
    · exact List.forall_mem_cons.mpr ⟨hbare, by simpa using bare_quoteEntry m⟩
    · simp [writtenArguments, hm, hread, quoteEntry]
    · intro w hw
      rw [List.flatMap_cons, List.filterMap_append, List.mem_append] at hw
      obtain hw | hw := hw
      · exact hwords w hw
      · obtain rfl | rfl : w = (.comma, [',']) ∨ (.string, quote m) = w := by
          simpa [ListEntry.pieces, quoteEntry, wordOf] using hw
        · exact ⟨by simp, fun hbegins => absurd hbegins (not_beginsStatement_of_kind (by simp))⟩
        · exact ⟨by simp [operandKinds], fun hbegins =>
            absurd hbegins (not_beginsStatement_of_kind (by simp))⟩

/-- The group that is written for a link holds its attribute wherever it stands. -/
theorem exists_inscription (h : Spelled imports target) (covers : Bool) : ∃ I : Inscription,
    I.text = writeGroup imports target covers ∧ I.Reads (Bears imports covers target) ∧
      (NamesNoStatement imports target → I.Quiet) := by
  obtain ⟨es, hsolid, hes, hbare, hparse, hwords⟩ := exists_arguments h
  refine ⟨.ofEntries (linkName covers) _ es (solid_linkName covers) hsolid hes hbare fun w hw hkind => ?_,
    ?_, ?_, fun hnames => ?_⟩
  · have hnone : ∀ kind ∈ TokenKind.comma :: operandKinds,
        kind ∉ [TokenKind.openBrace, .closeBrace, .semicolon] := by decide
    exact hnone _ (hwords w hw).1 hkind
  · simp only [Inscription.ofEntries, writeGroup, classArgument, linkName]
    cases target.method <;> simp [quote]
  · intro source l A Q hl hcut
    obtain ⟨g, hg, hnext, hspan, a, hattributes, hname, htexts⟩ := Inscription.reads_ofEntries hl hcut
    have htexts' := congrArg (List.map Expression.parse) htexts
    rw [List.map_map, List.map_map] at htexts'
    exact ⟨g, hg, hnext, hspan, a, hattributes, hname, htexts'.trans hparse⟩
  · refine Inscription.quiet_ofEntries ?_ fun w hw hbegins => ?_
    · cases covers <;> rintro ⟨-, h | h⟩ <;> revert h <;> decide
    · obtain ⟨x, hx, hn⟩ := (hwords w hw).2 hbegins
      obtain ⟨huse, hnamespace⟩ := hnames x hx _ hn
      obtain ⟨-, h | h⟩ := hbegins
      · rw [huse] at h
        cases h
      · rw [hnamespace] at h
        cases h

/-- The groups that are written for some links. -/
theorem exists_inscriptions (h : ∀ w ∈ targets, Spelled imports w) (covers : Bool) :
    ∃ is : List Inscription,
      is.map Inscription.text = targets.map (fun w => writeGroup imports w covers) ∧
      List.Forall₂ (fun I w => I.Reads (Bears imports covers w)) is targets ∧
      ((∀ w ∈ targets, NamesNoStatement imports w) → ∀ I ∈ is, I.Quiet) := by
  induction targets with
  | nil => exact ⟨[], rfl, .nil, by simp⟩
  | cons w targets ih =>
    obtain ⟨I, htext, hreads, hquiet⟩ := exists_inscription (h w List.mem_cons_self) covers
    obtain ⟨is, htexts, hall, hquiets⟩ := ih fun v hv => h v (List.mem_cons_of_mem _ hv)
    refine ⟨I :: is, by rw [List.map_cons, List.map_cons, htext, htexts], .cons hreads hall, fun hnames => ?_⟩
    exact List.forall_mem_cons.mpr ⟨hquiet (hnames w List.mem_cons_self),
      hquiets fun v hv => hnames v (List.mem_cons_of_mem _ hv)⟩

end Crosslink.AttributeList
