import Crosslink.Proofs.Composing

/-!
# Chains amended call by call

An edit goes along a chain and does to each call what that call needs: nothing, a new name, fewer
items, or away with it. What is left is told call by call, and so are the links it declares.

* §1 `changes_of_calls`, an edit from call to call.
* §2 Calls some of whose items name unwanted targets.
* §3 `amends_edit`, what edits do to a call.
* §4 The links a chain declares.
-/

namespace Crosslink.FluentChain

open Source Source.TokenSequence

variable {source : Text} {l : TokenSequence} {A A' P Q : List Piece} {c : ChainCall}
  {cs : List ChainCall} {imports : Imports} {targets : List Target} {start : Nat} {T : Prop}
  {splices : List Splice}

/-! ## 1. From call to call -/

/-- What an edit does to one call is a change of the chain. -/
structure Amends (source : Text) (l : TokenSequence) (imports : Imports) (start : Nat) (T : Prop)
    (act : Call → List Splice) (become : ChainCall → List ChainCall) (c : ChainCall) : Prop where
  change : ∀ {A A' Q : List Piece} {splices : List Splice}, Reaches l start (countIn A) → Closes A →
    Changes l start T A splices A' → Source.cut source = A ++ (c.pieces ++ Q) →
    Changes l start T (A ++ c.pieces) (splices ++ act (c.read imports (Reading.extent A)))
      (A' ++ (become c).flatMap ChainCall.pieces)

/-- An edit of a chain is a list of changes of it. -/
theorem changes_of_calls {act : Call → List Splice} {become : ChainCall → List ChainCall}
    (hl : tokenize source = .ok l) (hall : ∀ c ∈ cs, Amends source l imports start T act become c)
    (reach : Reaches l start (countIn A)) (hA : Closes A) (h : Changes l start T A splices A')
    (hcut : Source.cut source = A ++ (cs.flatMap ChainCall.pieces ++ Q)) :
    Changes l start T (A ++ cs.flatMap ChainCall.pieces)
      (splices ++ (readChain imports (Reading.extent A) cs).flatMap act)
      (A' ++ (cs.flatMap become).flatMap ChainCall.pieces) := by
  induction cs generalizing A A' splices with
  | nil => simpa [readChain] using h
  | cons c cs ih =>
    have hcut' : Source.cut source = A ++ (c.pieces ++ (cs.flatMap ChainCall.pieces ++ Q)) := by
      simpa using hcut
    have hfirst := (hall c (by simp)).change reach hA h hcut'
    have hpos := c.countIn_pieces
    have hreach : Reaches l start (countIn (A ++ c.pieces)) := by
      refine reach.trans ?_
      have hstep := Reaches.step (isCall_of_cut hl hcut') (.refl _)
      rwa [show countIn A + countIn c.pieces - 1 + 1 = countIn (A ++ c.pieces) by
        rw [countIn_append]; omega] at hstep
    have hcloses : Closes (A ++ c.pieces) :=
      ⟨_, _, by rw [c.exists_closer, ← List.append_assoc], rfl⟩
    have hrest := ih (fun d hd => hall d (List.mem_cons_of_mem _ hd)) hreach hcloses hfirst
      (by rw [hcut', List.append_assoc])
    simpa [readChain, extent_append] using hrest

/-! ## 2. Calls with unwanted items -/

/-- True for an item that names one of these targets. -/
def marked (imports : Imports) (targets : List Target) (e : ListEntry) : Bool :=
  (itemTarget imports e).any targets.contains

/-- True for a call that declares links. -/
def ChainCall.isLink (c : ChainCall) : Bool := c.name == linkingCall || c.name == coveringCall

theorem ChainCall.isLink_read (c : ChainCall) (offset : Nat) :
    (c.read imports offset).isLink = c.isLink := rfl

theorem name_of_isLink (h : c.isLink = true) : c.name = linkingCall ∨ c.name = coveringCall := by
  simpa [ChainCall.isLink] using h

theorem marks_read (offset : Nat) :
    marks targets (c.read imports offset) = c.entries.map (marked imports targets) := by
  rw [marks, ChainCall.read, ChainCall.targets, List.map_map]
  rfl

theorem parse_of_marked {e : ListEntry} (h : marked imports targets e = true) :
    ∃ x, Expression.parse (e.item.flatMap Piece.text) = .ok x := by
  have hsome : (itemTarget imports e).isSome = true := by
    unfold marked at h
    cases ht : itemTarget imports e with
    | none => simp [ht] at h
    | some t => rfl
  exact parse_of_itemTarget hsome

theorem allMarked_read (offset : Nat) : allMarked targets (c.read imports offset) =
    (c.entries.any (marked imports targets) && c.entries.all (marked imports targets)) := by
  simp [allMarked, marks_read, List.any_map, List.all_map]

/-! ## 3. What edits do to a call -/

/-- What becomes of a call that is edited for some targets: `whole` of it when all its items name
them, and it loses those that do otherwise. -/
def ChainCall.edited (whole : ChainCall → List ChainCall) (imports : Imports) (targets : List Target)
    (c : ChainCall) : List ChainCall :=
  if c.isLink && c.entries.any (marked imports targets) then
    if c.entries.all (marked imports targets) then whole c else [c.without (marked imports targets)]
  else [c]

/-- The edit of a call for some targets that does `whole` to it when all its items name them. -/
def editCall (whole : Call → Splice) (targets : List Target) (c : Call) : List Splice :=
  if allMarked targets c then [whole c]
  else if (marks targets c).any id then
    Edit.dropItems (c.arguments.map Argument.span) (marks targets c)
  else []

theorem removeFromCall_eq :
    removeFromCall = editCall fun c => .delete ⟨c.gap.start, c.stop⟩ := rfl

theorem upgradeCall_eq : upgradeCall = editCall fun c => .replace c.nameSpan coveringCall := rfl

/-- What an edit does to the calls that declare links, and to no others. -/
def onLinks (act : Call → List Splice) (c : Call) : List Splice := if c.isLink then act c else []

theorem flatMap_onLinks (act : Call → List Splice) (calls : List Call) :
    calls.flatMap (onLinks act) = (calls.filter Call.isLink).flatMap act := by
  induction calls with
  | nil => rfl
  | cons c calls ih =>
    rw [List.flatMap_cons, ih, onLinks, List.filter_cons]
    by_cases hc : c.isLink = true
    · rw [if_pos hc, if_pos hc, List.flatMap_cons]
    · rw [if_neg hc, if_neg hc, List.nil_append]

/-- Nothing is done to a call none of whose items name the targets. -/
theorem Amends.of_keep {act : Call → List Splice} {become : ChainCall → List ChainCall}
    (hact : ∀ offset, act (c.read imports offset) = []) (hbecome : become c = [c]) :
    Amends source l imports start T act become c := by
  refine ⟨fun {A A' Q splices} _ _ h _ => ?_⟩
  rw [hact, hbecome]
  simpa using h.extend c.pieces

/-- An edit of a call is a change of its chain when what it does to a whole call is one. -/
theorem amends_edit {whole : Call → Splice} {become : ChainCall → List ChainCall}
    (hl : tokenize source = .ok l) (hsp : Spaced (Source.cut source))
    (hwhole : ∀ {A A' Q : List Piece} {splices : List Splice}, Reaches l start (countIn A) →
      Closes A → Changes l start T A splices A' → Source.cut source = A ++ (c.pieces ++ Q) → c.Plain →
      c.name = linkingCall ∨ c.name = coveringCall →
      Changes l start T (A ++ c.pieces) (splices ++ [whole (c.read imports (Reading.extent A))])
        (A' ++ (become c).flatMap ChainCall.pieces)) :
    Amends source l imports start T (onLinks (editCall whole targets))
      (ChainCall.edited become imports targets) c := by
  by_cases hlink : c.isLink = true
  swap
  · exact .of_keep (fun _ => by rw [onLinks, c.isLink_read, if_neg hlink])
      (by rw [ChainCall.edited, if_neg (by simp [hlink])])
  have hact : ∀ offset, onLinks (editCall whole targets) (c.read imports offset) =
      editCall whole targets (c.read imports offset) := fun _ => by
    rw [onLinks, c.isLink_read, if_pos hlink]
  by_cases hany : c.entries.any (marked imports targets) = true
  swap
  · refine .of_keep (fun offset => ?_) (by rw [ChainCall.edited, if_neg (by simp [hany])])
    rw [hact, editCall, allMarked_read, if_neg (by simp [hany]),
      if_neg (by rw [marks_read, List.any_map]; exact hany)]
  have hedited : (c.isLink && c.entries.any (marked imports targets)) = true := by simp [hlink, hany]
  by_cases hall : c.entries.all (marked imports targets) = true
  · refine ⟨fun {A A' Q splices} reach hA h hcut => ?_⟩
    have hplain := plain_of_read hl hcut fun e he =>
      parse_of_marked (List.all_eq_true.mp hall e he)
    rw [hact, editCall, allMarked_read, if_pos (by simp [hany, hall]), ChainCall.edited, if_pos hedited,
      if_pos hall]
    exact hwhole reach hA h hcut hplain (name_of_isLink hlink)
  · refine ⟨fun {A A' Q splices} reach _ h hcut => ?_⟩
    obtain ⟨x, hx, hfx⟩ := List.all_eq_false.mp (Bool.eq_false_iff.mpr hall)
    have hread : ∀ e ∈ c.entries, marked imports targets e = true →
        ∃ z, Expression.parse (e.item.flatMap Piece.text) = .ok z := fun _ _ he => parse_of_marked he
    have hchanges := changes_of_drop hl hsp reach h hcut imports hread
      ⟨x, hx, Bool.eq_false_iff.mpr hfx⟩
    rw [hact, editCall, allMarked_read, if_neg (by simp [hall]),
      if_pos (by rw [marks_read, List.any_map]; exact hany), ChainCall.edited, if_pos hedited,
      if_neg hall, marks_read]
    simpa using hchanges

/-- What taking links out of a call comes to is a change of its chain. -/
theorem amends_remove (hl : tokenize source = .ok l) (hsp : Spaced (Source.cut source)) :
    Amends source l imports start T (onLinks (removeFromCall targets))
      (ChainCall.edited (fun _ => []) imports targets) c := by
  rw [removeFromCall_eq]
  refine amends_edit hl hsp fun {A A' Q splices} reach hA h _ hplain hname => ?_
  simpa using changes_of_removal reach hA h hplain hname imports

/-- What taking the upgraded links out of a call comes to is a change of its chain. -/
theorem amends_upgrade (hl : tokenize source = .ok l) (hsp : Spaced (Source.cut source)) :
    Amends source l imports start ("<?".toList <:+: source) (onLinks (upgradeCall targets))
      (ChainCall.edited (fun c => [c.renamed coveringCall]) imports targets) c := by
  rw [upgradeCall_eq]
  refine amends_edit hl hsp fun {A A' Q splices} reach hA h hcut hplain hname => ?_
  simpa using changes_of_rename hsp hcut reach hA h hplain hname (.inr rfl) imports

/-! ## 4. Links -/

/-- The links a call declares. -/
def ChainCall.links (imports : Imports) (c : ChainCall) : List Link :=
  if c.isLink then (c.targets imports).filterMap fun t => t.map fun t => ⟨t, c.name == coveringCall⟩
  else []

theorem links_readChain (imports : Imports) (offset : Nat) (cs : List ChainCall) :
    ((readChain imports offset cs).filter Call.isLink).flatMap Call.links =
      cs.flatMap (ChainCall.links imports) := by
  induction cs generalizing offset with
  | nil => rfl
  | cons c cs ih =>
    rw [readChain, List.filter_cons, c.isLink_read, List.flatMap_cons, ChainCall.links]
    by_cases hc : c.isLink = true
    · rw [if_pos hc, if_pos hc, List.flatMap_cons, ih]
      rfl
    · rw [if_neg hc, if_neg hc, ih, List.nil_append]

/-- True for a target that is not one of these. -/
def unwanted (targets : List Target) (k : Link) : Bool := !targets.contains k.target

theorem targets_without (f : ListEntry → Bool) :
    (c.without f).targets imports = (c.entries.filter fun e => !f e).map (itemTarget imports) := by
  have hitems := items_thin f none c.entries
  have hmap : ∀ es : List ListEntry, es.map (itemTarget imports) =
      (es.map ListEntry.item).map fun M => argumentTarget imports ⟨Span.point 0, M.flatMap Piece.text⟩ := by
    intro es
    rw [List.map_map]
    rfl
  rw [ChainCall.targets, hmap, hmap]
  exact congrArg _ hitems

/-- A call without the items that name some targets declares its other links. -/
theorem links_without : (c.without (marked imports targets)).links imports =
    (c.links imports).filter (unwanted targets) := by
  have hlink : (c.without (marked imports targets)).isLink = c.isLink := rfl
  have hname : (c.without (marked imports targets)).name = c.name := rfl
  rw [ChainCall.links, ChainCall.links, hlink, hname]
  by_cases hc : c.isLink = true
  · rw [if_pos hc, if_pos hc, targets_without, ChainCall.targets]
    induction c.entries with
    | nil => rfl
    | cons e es ih =>
      rw [List.filter_cons, List.map_cons, List.filterMap_cons]
      cases ht : itemTarget imports e with
      | none =>
        have hmarked : marked imports targets e = false := by simp [marked, ht]
        simpa [hmarked, ht] using ih
      | some t =>
        have hmarked : marked imports targets e = targets.contains t := by simp [marked, ht]
        by_cases hmem : t ∈ targets
        · simpa [hmarked, hmem, unwanted] using ih
        · simpa [hmarked, hmem, unwanted, ht] using ih
  · rw [if_neg hc, if_neg hc]
    rfl

/-- No link of a call is lost whose items name none of some targets. -/
theorem links_of_unmarked (h : c.entries.any (marked imports targets) = false) :
    (c.links imports).filter (unwanted targets) = c.links imports := by
  refine List.filter_eq_self.mpr fun k hk => ?_
  unfold ChainCall.links at hk
  split at hk
  · obtain ⟨t, ht, hkt⟩ := List.mem_filterMap.mp hk
    obtain ⟨e, he, hte⟩ := List.mem_map.mp ht
    obtain ⟨u, rfl, rfl⟩ := Option.map_eq_some_iff.mp hkt
    have := List.any_eq_false.mp h e he
    simpa [marked, hte, unwanted] using this
  · cases hk

/-- All links of a call are lost all of whose items name some targets. -/
theorem links_of_marked (h : c.entries.all (marked imports targets) = true) :
    (c.links imports).filter (unwanted targets) = [] := by
  refine List.filter_eq_nil_iff.mpr fun k hk => ?_
  unfold ChainCall.links at hk
  split at hk
  · obtain ⟨t, ht, hkt⟩ := List.mem_filterMap.mp hk
    obtain ⟨e, he, hte⟩ := List.mem_map.mp ht
    obtain ⟨u, rfl, rfl⟩ := Option.map_eq_some_iff.mp hkt
    have := List.all_eq_true.mp h e he
    simpa [marked, hte, unwanted] using this
  · cases hk

/-- What is left of calls from which links are taken declares the links that are not taken. -/
theorem links_removed (cs : List ChainCall) :
    (cs.flatMap (ChainCall.edited (fun _ => []) imports targets)).flatMap (ChainCall.links imports) =
      (cs.flatMap (ChainCall.links imports)).filter (unwanted targets) := by
  induction cs with
  | nil => rfl
  | cons c cs ih =>
    rw [List.flatMap_cons, List.flatMap_append, ih, List.flatMap_cons, List.filter_append]
    congr 1
    unfold ChainCall.edited
    split
    · split
      · rename_i hall
        rw [links_of_marked hall]
        rfl
      · rw [List.flatMap_singleton, links_without]
    · rename_i hnone
      rw [List.flatMap_singleton]
      by_cases hc : c.isLink = true
      · exact (links_of_unmarked (by simpa [hc] using hnone)).symm
      · rw [ChainCall.links, if_neg hc]
        rfl

/-- What becomes of a call from which some targets move to a covering call: it is one itself when all
its items name them. -/
def ChainCall.upgraded (imports : Imports) (targets : List Target) (c : ChainCall) : List ChainCall :=
  c.edited (fun c => [c.renamed coveringCall]) imports targets

theorem links_renamed : (c.renamed coveringCall).links imports =
    (c.targets imports).filterMap fun t => t.map fun t => ⟨t, true⟩ := rfl

theorem targets_of_links (hc : c.isLink = true) :
    (c.links imports).map Link.target = (c.targets imports).filterMap id := by
  rw [ChainCall.links, if_pos hc, List.map_filterMap]
  congr 1
  funext t
  cases t <;> rfl

/-- The links to other targets stay as they are when some are upgraded. -/
theorem links_upgraded (cs : List ChainCall) :
    ((cs.flatMap (ChainCall.upgraded imports targets)).flatMap (ChainCall.links imports)).filter
        (unwanted targets) =
      (cs.flatMap (ChainCall.links imports)).filter (unwanted targets) := by
  induction cs with
  | nil => rfl
  | cons c cs ih =>
    rw [List.flatMap_cons, List.flatMap_append, List.filter_append, ih, List.flatMap_cons,
      List.filter_append]
    congr 1
    unfold ChainCall.upgraded ChainCall.edited
    split
    · split
      · rename_i hall
        rw [List.flatMap_singleton, links_of_marked hall, links_of_marked (c := c.renamed coveringCall) hall]
      · rw [List.flatMap_singleton, links_without, List.filter_filter]
        simp
    · rw [List.flatMap_singleton]

/-- No target is declared by upgraded calls that was not declared, and none more often. -/
theorem targets_upgraded (cs : List ChainCall) :
    (((cs.flatMap (ChainCall.upgraded imports targets)).flatMap (ChainCall.links imports)).map
      Link.target).Sublist ((cs.flatMap (ChainCall.links imports)).map Link.target) := by
  induction cs with
  | nil => exact .slnil
  | cons c cs ih =>
    rw [List.flatMap_cons, List.flatMap_append, List.map_append, List.flatMap_cons, List.map_append]
    refine List.Sublist.append ?_ ih
    unfold ChainCall.upgraded ChainCall.edited
    split
    · rename_i hmarked
      have hlink : c.isLink = true := (Bool.and_eq_true_iff.mp hmarked).1
      split
      · rw [List.flatMap_singleton, targets_of_links hlink, targets_of_links (c := c.renamed coveringCall) rfl]
        exact .refl _
      · rw [List.flatMap_singleton, links_without]
        exact List.filter_sublist.map _
    · rw [List.flatMap_singleton]

/-- A target of a call all of whose items are upgraded is declared with coverage. -/
theorem mem_links_upgraded {t : Target} (hc : c ∈ cs) (hlink : c.isLink = true)
    (hall : c.entries.all (marked imports targets) = true) (ht : some t ∈ c.targets imports) :
    ⟨t, true⟩ ∈ (cs.flatMap (ChainCall.upgraded imports targets)).flatMap
      (ChainCall.links imports) := by
  obtain ⟨e, he, -⟩ := List.mem_map.mp ht
  have hany : c.entries.any (marked imports targets) = true :=
    List.any_eq_true.mpr ⟨e, he, List.all_eq_true.mp hall e he⟩
  refine List.mem_flatMap.mpr ⟨c.renamed coveringCall, List.mem_flatMap.mpr ⟨c, hc, ?_⟩, ?_⟩
  · rw [ChainCall.upgraded, ChainCall.edited, if_pos (by simp [hlink, hany]), if_pos hall]
    exact List.mem_singleton_self _
  · rw [links_renamed]
    exact List.mem_filterMap.mpr ⟨some t, ht, rfl⟩

end Crosslink.FluentChain
