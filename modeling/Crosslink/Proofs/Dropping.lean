import Crosslink.Edit
import Crosslink.FluentChain.Editor
import Crosslink.Proofs.Chains
import Crosslink.Proofs.Sequences

/-!
# Arguments dropped from a call

Where some arguments of a call are dropped, the others stay with the commas between them. The
splices that drop them are changes of the chain, and what they leave of the list is the list of the
arguments that stay.

* §1 `thin`, a list without some of its items.
* §2 What comes before and after an item.
* §3 `changes_of_drop`, the splices of a call as changes.
-/

namespace Crosslink.FluentChain

open Source Source.TokenSequence

variable {source : Text} {l : TokenSequence} {A M P P' Q R s t : List Piece} {p q : Piece}
  {f : ListEntry → Bool} {e : ListEntry} {es : List ListEntry} {fresh : Bool} {start : Nat} {T : Prop}
  {splices : List Splice}

/-! ## 1. Lists without some of their items -/

/-- Entries without those whose items are dropped. What stood before the first of a run of dropped
items now stands before the item after them; `lead` is what was before the run that is at its end
here. -/
def thin (f : ListEntry → Bool) : Option (List Piece) → List ListEntry → List ListEntry
  | _, [] => []
  | lead, e :: es =>
    if f e then thin f (some (lead.getD e.sep)) es
    else ⟨lead.getD e.sep, e.item⟩ :: thin f none es

theorem thin_none (f : ListEntry → Bool) (e : ListEntry) (es : List ListEntry) :
    thin f none (e :: es) = thin f (some e.sep) (e :: es) := rfl

/-- The items that stay are those that are not dropped. -/
theorem items_thin (f : ListEntry → Bool) (lead : Option (List Piece)) (es : List ListEntry) :
    (thin f lead es).map ListEntry.item = (es.filter fun e => !f e).map ListEntry.item := by
  induction es generalizing lead with
  | nil => rfl
  | cons e es ih =>
    rw [thin, List.filter_cons]
    by_cases he : f e = true
    · simp [he, ih]
    · simp [he, ih]

theorem thin_of_dropped (h : f e = true) (s : List Piece) (es : List ListEntry) :
    thin f (some s) (e :: es) = thin f (some s) es := by
  rw [thin, if_pos h]
  rfl

theorem thin_of_kept (h : f e = false) (s : List Piece) (es : List ListEntry) :
    thin f (some s) (e :: es) = ⟨s, e.item⟩ :: thin f none es := by
  rw [thin, if_neg (by simp [h])]
  rfl

theorem thin_of_all (h : ∀ e ∈ es, f e = true) (lead : Option (List Piece)) : thin f lead es = [] := by
  rw [← List.map_eq_nil_iff (f := ListEntry.item), items_thin, List.map_eq_nil_iff,
    List.filter_eq_nil_iff]
  intro e he
  simp [h e he]

theorem entries_thin_some (h : Entries false es) (hs : Commas s)
    (hfresh : fresh = false → kindsIn s ≠ []) : Entries fresh (thin f (some s) es) := by
  induction es generalizing s fresh with
  | nil => exact .nil _
  | cons e es ih =>
    cases h with
    | cons commas apart item rest =>
      rw [thin]
      split
      · exact ih rest hs hfresh
      · refine .cons hs hfresh item ?_
        cases es with
        | nil => exact .nil _
        | cons e' es =>
          rw [thin_none]
          cases rest with
          | cons commas' apart' item' rest' =>
            exact ih (.cons commas' apart' item' rest') commas' apart'

/-- What is left of a list is a list. -/
theorem entries_thin (h : Entries fresh es) : Entries fresh (thin f none es) := by
  cases h with
  | nil => exact .nil _
  | @cons _ e es commas apart item rest =>
    rw [thin]
    split
    · exact entries_thin_some rest commas apart
    · refine .cons commas apart item ?_
      cases es with
      | nil => exact .nil _
      | cons e' es =>
        rw [thin_none]
        cases rest with
        | cons commas' apart' item' rest' =>
          exact entries_thin_some (.cons commas' apart' item' rest') commas' apart'

/-- The pieces of what is left, when something is left. -/
theorem pieces_thin (f : ListEntry → Bool) (s : List Piece) (h : ∃ e ∈ es, f e = false) :
    (thin f (some s) es).flatMap ListEntry.pieces = s ++ (thin f (some []) es).flatMap ListEntry.pieces := by
  induction es with
  | nil => simp at h
  | cons e es ih =>
    by_cases he : f e = true
    · simp only [thin, he, if_true, Option.getD_some]
      refine ih ?_
      obtain ⟨x, hx, hfx⟩ := h
      obtain rfl | hx := List.mem_cons.mp hx
      · rw [he] at hfx
        cases hfx
      · exact ⟨x, hx, hfx⟩
    · simp [thin, he, ListEntry.pieces]

theorem mem_thin {lead : Option (List Piece)} (h : p ∈ (thin f lead es).flatMap ListEntry.pieces) :
    p ∈ es.flatMap ListEntry.pieces ∨ ∃ s ∈ lead, p ∈ s := by
  induction es generalizing lead with
  | nil => simp [thin] at h
  | cons e es ih =>
    have hsep : p ∈ lead.getD e.sep → p ∈ (e :: es).flatMap ListEntry.pieces ∨ ∃ s ∈ lead, p ∈ s := by
      intro hp
      cases lead with
      | none => exact .inl (by simp [ListEntry.pieces, show p ∈ e.sep from hp])
      | some s => exact .inr ⟨s, rfl, hp⟩
    rw [thin] at h
    split at h
    · obtain hp | ⟨s, hs, hp⟩ := ih h
      · exact .inl (by rw [List.flatMap_cons]; exact List.mem_append_right _ hp)
      · obtain rfl := Option.some.inj hs
        exact hsep hp
    · rw [List.flatMap_cons, List.mem_append, ListEntry.pieces, List.mem_append] at h
      obtain (hp | hp) | hp := h
      · exact hsep hp
      · exact .inl (by simp [ListEntry.pieces, hp])
      · obtain hp | ⟨s, hs, -⟩ := ih hp
        · exact .inl (by rw [List.flatMap_cons]; exact List.mem_append_right _ hp)
        · cases hs

/-- A call without some of its items. -/
def ChainCall.without (f : ListEntry → Bool) (c : ChainCall) : ChainCall :=
  { c with
    entries := thin f none c.entries
    listed := entries_thin c.listed
    ends := fun p hp => c.ends p (by
      simp only [List.mem_append] at hp ⊢
      obtain hp | hp | hp := hp
      · exact .inl hp
      · obtain hp | ⟨s, hs, -⟩ := mem_thin hp
        · exact .inr (.inl hp)
        · cases hs
      · exact .inr (.inr hp)) }

/-! ## 2. Before and after an item -/

theorem head_kind_of_commas (h : Commas s) {kinds : List TokenKind}
    (hk : kinds.head? = some .comma ∨ kinds.head? = some .closeParen) :
    (kindsIn s ++ kinds).head? = some .comma ∨ (kindsIn s ++ kinds).head? = some .closeParen := by
  cases hs : kindsIn s with
  | nil => simpa using hk
  | cons kind rest =>
    obtain rfl := h kind (by rw [hs]; simp)
    exact .inl rfl

/-- After an item comes a comma or the end of the list. -/
theorem kind_after_item (hes : Entries false es) (ht : Commas t)
    (hR : (kindsIn R).head? = some .closeParen) :
    (kindsIn (es.flatMap ListEntry.pieces ++ (t ++ R))).head? = some .comma ∨
      (kindsIn (es.flatMap ListEntry.pieces ++ (t ++ R))).head? = some .closeParen := by
  cases hes with
  | nil =>
    rw [List.flatMap_nil, List.nil_append, kindsIn_append]
    exact head_kind_of_commas ht (.inr hR)
  | @cons _ e es commas apart item rest =>
    rw [List.flatMap_cons, ListEntry.pieces, List.append_assoc, List.append_assoc, kindsIn_append]
    cases hs : kindsIn e.sep with
    | nil => exact absurd hs (apart rfl)
    | cons kind kinds =>
      obtain rfl := commas kind (by rw [hs]; simp)
      exact .inl rfl

/-- Pieces whose first token is a comma or a closing parenthesis stand off what is before them. -/
theorem breaks_of_kind (hl : tokenize source = .ok l) (hcut : Source.cut source = A ++ R)
    (hA : A ≠ []) (h : (kindsIn R).head? = some .comma ∨ (kindsIn R).head? = some .closeParen) :
    ∃ r R', R = r :: R' ∧ r.kind.isBreak = true ∧ Breaks (R.flatMap Piece.text) := by
  cases R with
  | nil => obtain h | h := h <;> cases h
  | cons r R' =>
    have hends : ∀ d, r.kind ≠ .broken d :=
      fun d => ne_broken_of_tokenize hl (by rw [hcut]; simp) d
    have hr : r.kind.isBreak = true := by
      obtain h | h := h
      · exact isBreak_of_first hends h rfl
      · exact isBreak_of_first hends h rfl
    obtain ⟨c, cs, hc, hmem⟩ := head_of_isBreak (cut_suffix hcut hA) hr
    exact ⟨r, R', rfl, hr, by rw [hc]; exact breaks_of_mem hmem cs⟩

/-- The words of an item that is read. -/
theorem written_of_item (hl : tokenize source = .ok l)
    (hcut : Source.cut source = A ++ (e.item ++ (es.flatMap ListEntry.pieces ++ (t ++ R))))
    (hitem : Item e.item) (hes : Entries false es) (ht : Commas t)
    (hR : (kindsIn R).head? = some .closeParen) {x : Expression}
    (he : Expression.parse (e.item.flatMap Piece.text) = .ok x) :
    x.Written (e.item.filterMap wordOf) := by
  obtain ⟨p, I₁, kind, hI, hp, -⟩ := hitem.first
  have hcode : e.item ++ (es.flatMap ListEntry.pieces ++ (t ++ R)) =
      cutCode ((e.item ++ (es.flatMap ListEntry.pieces ++ (t ++ R))).flatMap Piece.text) := by
    rw [hI, List.cons_append] at hcut ⊢
    exact cut_suffix_of_ne_markup hcut (by rw [hp]; simp)
  obtain ⟨-, -, -, -, hbreaks⟩ := breaks_of_kind hl (A := A ++ e.item) (by simpa using hcut)
    (by simp [hitem.ne_nil]) (kind_after_item hes ht hR)
  obtain ⟨ws, hwritten, hspells⟩ := spells_of_parse hcode hbreaks he
  rwa [hspells.words]

/-- An item that names a target is read. -/
theorem parse_of_itemTarget {imports : Imports} (h : (itemTarget imports e).isSome = true) :
    ∃ x, Expression.parse (e.item.flatMap Piece.text) = .ok x := by
  unfold itemTarget argumentTarget at h
  cases hx : Expression.parse (e.item.flatMap Piece.text) with
  | ok x => exact ⟨x, rfl⟩
  | error err => simp [hx] at h

theorem head_of_commas (h : Commas s) (hne : kindsIn s ≠ []) : (kindsIn s).head? = some .comma := by
  cases hs : kindsIn s with
  | nil => exact absurd hs hne
  | cons kind kinds =>
    obtain rfl := h kind (by rw [hs]; simp)
    rfl

theorem last_of_commas (h : Commas s) (hne : kindsIn s ≠ []) :
    (kindsIn s).getLast? = some .comma := by
  rw [List.getLast?_eq_some_getLast hne, h _ (List.getLast_mem hne)]

theorem harmless_of_commas (h : Commas s) : Harmless (s.filterMap wordOf) := by
  have hkind : ∀ w ∈ s.filterMap wordOf, w.1 = .comma :=
    fun w hw => h w.1 (List.mem_map.mpr ⟨w, hw, rfl⟩)
  generalize s.filterMap wordOf = ws at hkind
  induction ws with
  | nil => trivial
  | cons w ws ih =>
    refine .cons (not_beginsStatement_of_kind ?_) (ih fun v hv => hkind v (List.mem_cons_of_mem _ hv))
    rw [hkind w (by simp)]
    simp

theorem listKinds_of_written {x : Expression} (h : x.Written (M.filterMap wordOf)) :
    ∀ kind ∈ kindsIn M, kind ∈ listKinds := by
  intro kind hkind
  obtain ⟨w, hw, rfl⟩ := List.mem_map.mp hkind
  exact List.mem_cons_of_mem _ (h.kinds w hw)

theorem listKinds_of_commas (h : Commas s) : ∀ kind ∈ kindsIn s, kind ∈ listKinds :=
  fun kind hkind => by rw [h kind hkind]; simp [listKinds]

/-- The words of items that are all read. -/
theorem words_of_entries (hl : tokenize source = .ok l)
    (hcut : Source.cut source = A ++ (es.flatMap ListEntry.pieces ++ (t ++ R)))
    (hes : Entries fresh es) (ht : Commas t) (hR : (kindsIn R).head? = some .closeParen)
    (hread : ∀ e ∈ es, ∃ x, Expression.parse (e.item.flatMap Piece.text) = .ok x) :
    (∀ kind ∈ kindsIn (es.flatMap ListEntry.pieces), kind ∈ listKinds) ∧
      Harmless ((es.flatMap ListEntry.pieces).filterMap wordOf) := by
  induction hes generalizing A with
  | nil => exact ⟨by simp [kindsIn], trivial⟩
  | @cons _ e es commas apart item rest ih =>
    have hcut' : Source.cut source =
        (A ++ e.sep) ++ (e.item ++ (es.flatMap ListEntry.pieces ++ (t ++ R))) := by
      simpa [ListEntry.pieces] using hcut
    obtain ⟨x, hx⟩ := hread e (by simp)
    have hwritten := written_of_item hl hcut' item rest ht hR hx
    obtain ⟨hkinds, hharmless⟩ := ih (A := A ++ e.sep ++ e.item) (by simpa using hcut')
      fun e' he' => hread e' (List.mem_cons_of_mem _ he')
    rw [List.flatMap_cons, ListEntry.pieces]
    refine ⟨fun kind hkind => ?_, ?_⟩
    · rw [kindsIn_append, kindsIn_append, List.mem_append, List.mem_append] at hkind
      obtain (hkind | hkind) | hkind := hkind
      · exact listKinds_of_commas commas kind hkind
      · exact listKinds_of_written hwritten kind hkind
      · exact hkinds kind hkind
    · rw [List.filterMap_append, List.filterMap_append]
      exact ((harmless_of_commas commas).append hwritten.harmless).append hharmless

/-! ## 3. The splices of a call -/

/-- The spans of items, the first of which begins at an offset, each with whether it is dropped. -/
def flagged (f : ListEntry → Bool) (offset : Nat) (es : List ListEntry) : List (Span × Bool) :=
  ((argumentsOf offset es).map Argument.span).zip (es.map f)

theorem any_flagged (f : ListEntry → Bool) (offset : Nat) (es : List ListEntry) :
    (flagged f offset es).any (!·.2) = es.any (!f ·) := by
  induction es generalizing offset with
  | nil => rfl
  | cons e es ih =>
    have := ih (offset + Reading.extent e.sep + Reading.extent e.item)
    simp only [flagged] at this
    simp [flagged, argumentsOf, this]

/-- The last of some items ends where all their pieces do. -/
theorem last_flagged (f : ListEntry → Bool) (offset : Nat) (e : ListEntry) (es : List ListEntry) :
    ∃ last flag, (flagged f offset (e :: es)).getLast? = some (last, flag) ∧
      last.stop = offset + Reading.extent ((e :: es).flatMap ListEntry.pieces) := by
  induction es generalizing offset e with
  | nil => exact ⟨_, _, rfl, by simp [Reading.extent, ListEntry.pieces, Nat.add_assoc]⟩
  | cons e' es ih =>
    obtain ⟨last, flag, hlast, hstop⟩ :=
      ih (offset + Reading.extent e.sep + Reading.extent e.item) e'
    refine ⟨last, flag, ?_, ?_⟩
    · rw [← hlast]
      simp [flagged, argumentsOf]
    · rw [hstop, List.flatMap_cons (x := e), extent_append, ListEntry.pieces, extent_append]
      omega

/-- A piece of a list that is no more than commas ends by itself if it is a token. -/
theorem seals_of_commas (hs : Commas s) (hp : p ∈ s) {kind : TokenKind} (hk : p.kind = .token kind) :
    kind.seals = true := by
  have hmem : kind ∈ kindsIn s :=
    List.mem_map.mpr ⟨(kind, p.text), List.mem_filterMap.mpr ⟨p, hp, by simp [wordOf, hk]⟩, rfl⟩
  rw [hs kind hmem]
  rfl

/-- The piece before an item ends by itself. -/
theorem seals_before_item (hl : tokenize source = .ok l) (hsp : Spaced (Source.cut source))
    (hcut : Source.cut source = P ++ (e.item ++ R)) (hitem : Item e.item)
    (hlast : ∀ p ∈ P.getLast?, ∀ k, p.kind = .token k → k.seals = true) :
    ∀ p ∈ P.getLast?, p.seals = true := by
  intro p hp
  obtain ⟨q, I₁, kind, hI, hq, -⟩ := hitem.first
  obtain ⟨P₀, rfl⟩ : ∃ P₀, P = P₀ ++ [p] :=
    ⟨_, (List.dropLast_append_getLast? p hp).symm⟩
  have hcut' : Source.cut source = P₀ ++ p :: q :: (I₁ ++ R) := by
    rw [hcut, hI]
    simp
  refine seals_of_next hcut' hq (hlast p hp) (fun hmark htag => ?_) fun d =>
    ne_broken_of_tokenize hl (by rw [hcut']; simp) d
  have htags := hsp.tags
  rw [hcut'] at htags
  obtain ⟨-, hchain, -⟩ := List.isChain_append.mp htags
  exact (List.isChain_cons_cons.mp hchain).1 ⟨hmark, htag⟩ kind hq

/-- The splices that drop items are changes of the chain. What is already changed are the pieces up
to an item. -/
theorem changes_of_items (hl : tokenize source = .ok l) (hsp : Spaced (Source.cut source))
    {k y : Nat} (reach : Reaches l start k) (call : IsCall l k y) (ht : Commas t) {closer : Text}
    {offset : Nat} (h : Changes l start T P splices P')
    (hcut : Source.cut source = P ++ (e.item ++ (es.flatMap ListEntry.pieces ++
      (t ++ ⟨.token .closeParen, closer⟩ :: Q))))
    (hinside : countIn P + countIn e.item + countIn (es.flatMap ListEntry.pieces) + countIn t = y)
    (hitem : Item e.item) (hes : Entries false es)
    (hwalk : ∃ S, Walks l none (k + 3) S none (countIn P))
    (hlast : ∀ p ∈ P.getLast?, ∀ k, p.kind = .token k → k.seals = true)
    (hoffset : offset + Reading.extent e.sep = Reading.extent P)
    (hread : ∀ x ∈ e :: es, f x = true →
      ∃ z, Expression.parse (x.item.flatMap Piece.text) = .ok z)
    (hkept : ∃ x ∈ e :: es, f x = false) :
    Changes l start T
      (P ++ (e.item ++ (es.flatMap ListEntry.pieces ++ (t ++ [⟨.token .closeParen, closer⟩]))))
      (splices ++ Edit.dropBeforeKept (flagged f offset (e :: es)))
      (P' ++ ((thin f (some []) (e :: es)).flatMap ListEntry.pieces ++
        (t ++ [⟨.token .closeParen, closer⟩]))) := by
  induction es generalizing e P P' splices offset with
  | nil =>
    obtain ⟨x, hx, hfx⟩ := hkept
    obtain rfl : x = e := by simpa using hx
    have hthin : thin f (some []) [x] = [⟨[], x.item⟩] := by simp [thin, hfx]
    rw [hthin]
    simpa [flagged, argumentsOf, Edit.dropBeforeKept, ListEntry.pieces] using h.extend _
  | cons e₂ es ih =>
    cases hes with
    | cons commas apart item rest =>
    have hcut₂ : Source.cut source = (P ++ (e.item ++ e₂.sep)) ++ (e₂.item ++
        (es.flatMap ListEntry.pieces ++ (t ++ ⟨.token .closeParen, closer⟩ :: Q))) := by
      rw [hcut]
      simp [ListEntry.pieces]
    have hcount : countIn (P ++ (e.item ++ e₂.sep)) = countIn P + countIn e.item + countIn e₂.sep := by
      rw [countIn_append, countIn_append]
      omega
    have hinside₂ : countIn (P ++ (e.item ++ e₂.sep)) + countIn e₂.item +
        countIn (es.flatMap ListEntry.pieces) + countIn t = y := by
      rw [List.flatMap_cons, ListEntry.pieces, countIn_append, countIn_append] at hinside
      omega
    obtain ⟨S, hS⟩ := hwalk
    have hwalkItem := walks_of_item hl hcut hitem none
    have hwalk₂ : ∃ S, Walks l none (k + 3) S none (countIn (P ++ (e.item ++ e₂.sep))) := by
      have hsep := walks_of_sep hl (A := P ++ e.item) (Q := e₂.item ++ (es.flatMap ListEntry.pieces ++
        (t ++ ⟨.token .closeParen, closer⟩ :: Q))) (by rw [hcut₂]; simp) commas
        (o := some ((Option.map Prod.fst (none : Option (Nat × Nat))).getD (countIn P),
          countIn P + countIn e.item - 1)) fun hs => absurd hs (apart rfl)
      rw [countIn_append] at hsep
      rw [hcount]
      exact ⟨_, (hS.trans hwalkItem).trans hsep⟩
    have hne : e₂.sep ≠ [] := fun hs => apart rfl (by rw [hs]; rfl)
    have hlast₂ : ∀ p ∈ (P ++ (e.item ++ e₂.sep)).getLast?, ∀ k, p.kind = .token k →
        k.seals = true := by
      intro p hp k hk
      rw [← List.append_assoc, List.getLast?_append_of_ne_nil _ hne] at hp
      exact seals_of_commas commas (List.mem_of_getLast? hp) hk
    have hread₂ : ∀ x ∈ e₂ :: es, f x = true →
        ∃ z, Expression.parse (x.item.flatMap Piece.text) = .ok z :=
      fun x hx => hread x (List.mem_cons_of_mem _ hx)
    have hflag : flagged f offset (e :: e₂ :: es) =
        (⟨Reading.extent P, Reading.extent P + Reading.extent e.item⟩, f e) ::
          flagged f (Reading.extent P + Reading.extent e.item) (e₂ :: es) := by
      simp [flagged, argumentsOf, hoffset]
    have hflag₂ : ∃ stop rest, flagged f (Reading.extent P + Reading.extent e.item) (e₂ :: es) =
        (⟨Reading.extent P + Reading.extent e.item + Reading.extent e₂.sep, stop⟩, f e₂) :: rest :=
      ⟨_, _, rfl⟩
    have hoffset₂ : Reading.extent P + Reading.extent e.item + Reading.extent e₂.sep =
        Reading.extent (P ++ (e.item ++ e₂.sep)) := by
      rw [extent_append, extent_append]
      omega
    have hR : (kindsIn (⟨.token .closeParen, closer⟩ :: Q)).head? = some .closeParen := by
      rw [kindsIn_of_token rfl]
      rfl
    have hany := any_flagged f (Reading.extent P + Reading.extent e.item) (e₂ :: es)
    obtain ⟨stop₂, rest₂, hflag₂⟩ := hflag₂
    by_cases hlater : ∃ x ∈ e₂ :: es, f x = false
    · have hany' : (flagged f (Reading.extent P + Reading.extent e.item) (e₂ :: es)).any (!·.2) = true := by
        rw [hany, List.any_eq_true]
        obtain ⟨x, hx, hfx⟩ := hlater
        exact ⟨x, hx, by simp [hfx]⟩
      by_cases he : f e = true
      · -- the item is dropped, with what stands before the next
        have hdrop : Edit.dropBeforeKept (flagged f offset (e :: e₂ :: es)) =
            .delete ⟨Reading.extent P, Reading.extent P + Reading.extent e.item +
              Reading.extent e₂.sep⟩ :: Edit.dropBeforeKept
                (flagged f (Reading.extent P + Reading.extent e.item) (e₂ :: es)) := by
          rw [hflag, hflag₂, Edit.dropBeforeKept, ← hflag₂, if_pos hany', if_pos he]
        obtain ⟨z, hz⟩ := hread e (by simp) he
        have hwritten := written_of_item hl hcut hitem (.cons commas apart item rest) ht hR hz
        have hchange : Change l start P (e.item ++ e₂.sep) [] [] := by
          refine .front reach call hS ?_ (fun kind hkind => ?_) ?_ ?_
            (seals_before_item hl hsp hcut hitem hlast)
          · rw [countIn_append]
            omega
          · rw [kindsIn_append, List.mem_append] at hkind
            exact hkind.elim (listKinds_of_written hwritten kind) (listKinds_of_commas commas kind)
          · rw [List.filterMap_append]
            exact hwritten.harmless.append (harmless_of_commas commas)
          · rw [kindsIn_append, List.getLast?_append_of_ne_nil _ (apart rfl)]
            exact last_of_commas commas (apart rfl)
        have hsnoc := Changes.snoc (R := []) h hchange
          (s := .delete ⟨Reading.extent P, Reading.extent P + Reading.extent e.item +
            Reading.extent e₂.sep⟩)
          ⟨⟨[], (e.item ++ e₂.sep).flatMap Piece.text, [], by simp, rfl, rfl, by
            simp [Splice.span, Reading.extent, Nat.add_assoc]⟩⟩ (by simp)
        simp only [List.append_nil] at hsnoc
        have hall := ih hsnoc hcut₂ hinside₂ item rest hwalk₂ hlast₂ hoffset₂ hread₂ hlater
        rw [hdrop, thin_of_dropped he]
        simpa [ListEntry.pieces] using hall
      · -- the item stays
        have he' : f e = false := by simpa using he
        have hdrop : Edit.dropBeforeKept (flagged f offset (e :: e₂ :: es)) = Edit.dropBeforeKept
            (flagged f (Reading.extent P + Reading.extent e.item) (e₂ :: es)) := by
          rw [hflag, hflag₂, Edit.dropBeforeKept, ← hflag₂, if_pos hany', if_neg he]
        have hall := ih (h.extend (e.item ++ e₂.sep)) hcut₂ hinside₂ item rest hwalk₂ hlast₂ hoffset₂
          hread₂ hlater
        have hthin : (thin f (some []) (e :: e₂ :: es)).flatMap ListEntry.pieces =
            e.item ++ (e₂.sep ++ (thin f (some []) (e₂ :: es)).flatMap ListEntry.pieces) := by
          rw [thin_of_kept he', thin_none, ← pieces_thin f e₂.sep hlater]
          rfl
        rw [hdrop, hthin]
        simpa [ListEntry.pieces] using hall
    · -- nothing stays after the item
      have hdropped : ∀ x ∈ e₂ :: es, f x = true := by
        intro x hx
        by_contra hfx
        exact hlater ⟨x, hx, by simpa using hfx⟩
      have he : f e = false := by
        obtain ⟨x, hx, hfx⟩ := hkept
        obtain rfl | hx := List.mem_cons.mp hx
        · exact hfx
        · exact absurd ⟨x, hx, hfx⟩ hlater
      have hany' : (flagged f (Reading.extent P + Reading.extent e.item) (e₂ :: es)).any (!·.2) =
          false := by
        rw [hany, List.any_eq_false]
        intro x hx
        simp [hdropped x hx]
      obtain ⟨last, flag, hlastItem, hstop⟩ :=
        last_flagged f (Reading.extent P + Reading.extent e.item) e₂ es
      have hdrop : Edit.dropBeforeKept (flagged f offset (e :: e₂ :: es)) =
          [.delete ⟨Reading.extent P + Reading.extent e.item, last.stop⟩] := by
        rw [hflag, hflag₂, Edit.dropBeforeKept, ← hflag₂, if_neg (by rw [hany']; simp),
          if_neg (by rw [he]; simp), hlastItem]
      have hthin : thin f (some []) (e :: e₂ :: es) = [⟨[], e.item⟩] := by
        rw [thin_of_kept he, thin_of_all hdropped]
      rw [hdrop, hthin]
      have hcutM : Source.cut source = (P ++ e.item) ++ ((e₂ :: es).flatMap ListEntry.pieces ++
          (t ++ ⟨.token .closeParen, closer⟩ :: Q)) := by
        rw [hcut, List.append_assoc]
      obtain ⟨hkindsM, hharmlessM⟩ := words_of_entries hl hcutM (.cons commas apart item rest) ht hR
        fun x hx => hread₂ x hx (hdropped x hx)
      obtain ⟨I₀, p, kind, hI, hp⟩ := hitem.last
      have hcommaM : (kindsIn ((e₂ :: es).flatMap ListEntry.pieces)).head? = some .comma := by
        rw [List.flatMap_cons, ListEntry.pieces, List.append_assoc]
        exact head?_kindsIn_append (head_of_commas commas (apart rfl)) _
      obtain ⟨r, R₁, hr, hbreak, -⟩ := breaks_of_kind hl hcutM (by simp [hitem.ne_nil])
        (.inl (head?_kindsIn_append hcommaM _))
      obtain ⟨M₁, hM₁⟩ : ∃ M₁, (e₂ :: es).flatMap ListEntry.pieces = r :: M₁ := by
        cases hcons : (e₂ :: es).flatMap ListEntry.pieces with
        | nil =>
          rw [hcons] at hcommaM
          cases hcommaM
        | cons x xs =>
          rw [hcons, List.cons_append] at hr
          exact ⟨xs, by rw [(List.cons.inj hr).1]⟩
      have hnext : (kindsIn (t ++ [⟨.token .closeParen, closer⟩])).head? = some .comma ∨
          (kindsIn (t ++ [⟨.token .closeParen, closer⟩])).head? = some .closeParen := by
        rw [kindsIn_append]
        exact head_kind_of_commas ht (.inr (by rw [kindsIn_of_token rfl]; rfl))
      have hnextQ := hnext.imp (head?_kindsIn_append · Q) (head?_kindsIn_append · Q)
      obtain ⟨b, B₁, hb, hbreak', -⟩ := breaks_of_kind hl
        (A := (P ++ e.item) ++ (e₂ :: es).flatMap ListEntry.pieces)
        (by rw [hcutM]; simp) (by simp [hitem.ne_nil]) hnextQ
      obtain ⟨B₂, hB₂⟩ : ∃ B₂, t ++ [⟨.token .closeParen, closer⟩] = b :: B₂ := by
        cases hcons : t ++ [(⟨.token .closeParen, closer⟩ : Piece)] with
        | nil => simp at hcons
        | cons x xs =>
          rw [hcons, List.cons_append] at hb
          exact ⟨xs, by rw [(List.cons.inj hb).1]⟩
      have hcountA : countIn (P ++ I₀ ++ [p]) = countIn P + countIn e.item := by
        rw [List.append_assoc, ← hI, countIn_append]
      have hchange : Change l start (P ++ I₀ ++ [p]) (r :: M₁) [] (b :: B₂) := by
        have hwalkA := hS.trans hwalkItem
        rw [← hcountA] at hwalkA
        refine .back reach call hwalkA ?_ ?_ ?_ hp ?_ hbreak ?_ hbreak'
        · rw [hcountA, ← hM₁]
          omega
        · rwa [← hM₁]
        · rwa [← hM₁]
        · rwa [← hM₁]
        · rwa [← hB₂]
      have hPI : P ++ I₀ ++ [p] = P ++ e.item := by rw [hI, List.append_assoc]
      rw [hPI, ← hM₁, ← hB₂] at hchange
      have hsnoc := Changes.snoc (R := []) (h.extend e.item) hchange
        (s := .delete ⟨Reading.extent P + Reading.extent e.item, last.stop⟩)
        ⟨⟨[], ((e₂ :: es).flatMap ListEntry.pieces).flatMap Piece.text, [], by simp, rfl, by
          simp [Splice.span, Reading.extent], by
          rw [extent_append]
          exact hstop⟩⟩ (by simp)
      simpa [ListEntry.pieces] using hsnoc

theorem ChainCall.exists_head (c : ChainCall) :
    ∃ F, c.head = F ++ [⟨.token .openParen, c.opener⟩] :=
  ⟨c.lead ++ ⟨.token .arrow, c.arrow⟩ :: (c.inner ++ ⟨.token .name, c.name⟩ :: c.outer), by
    simp [ChainCall.head]⟩

/-- The splices that drop arguments of a call, when some argument stays, are changes of the chain. -/
theorem changes_of_drop (hl : tokenize source = .ok l) (hsp : Spaced (Source.cut source))
    {c : ChainCall} (reach : Reaches l start (countIn A)) {A' : List Piece}
    (h : Changes l start T A splices A') (hcut : Source.cut source = A ++ (c.pieces ++ Q))
    (imports : Imports)
    (hread : ∀ x ∈ c.entries, f x = true →
      ∃ z, Expression.parse (x.item.flatMap Piece.text) = .ok z)
    (hkept : ∃ x ∈ c.entries, f x = false) :
    Changes l start T (A ++ c.pieces)
      (splices ++ Edit.dropItems ((c.read imports (Reading.extent A)).arguments.map Argument.span)
        (c.entries.map f))
      (A' ++ (c.without f).pieces) := by
  obtain ⟨e, es, hes⟩ : ∃ e es, c.entries = e :: es := by
    obtain ⟨x, hx, -⟩ := hkept
    exact List.exists_cons_of_ne_nil (List.ne_nil_of_mem hx)
  have hlisted := c.listed
  rw [hes] at hlisted hread hkept
  cases hlisted with
  | cons commas apart item rest =>
    have hcutP : Source.cut source = (A ++ (c.head ++ e.sep)) ++ (e.item ++
        (es.flatMap ListEntry.pieces ++ (c.rest ++ ⟨.token .closeParen, c.closer⟩ :: Q))) := by
      rw [hcut, ChainCall.pieces, ChainCall.body, hes]
      simp [ListEntry.pieces]
    have hcountHead : countIn (A ++ c.head) = countIn A + 3 := by
      rw [countIn_append, c.countIn_head]
    have hwalk := walks_of_sep hl (A := A ++ c.head) (Q := e.item ++ (es.flatMap ListEntry.pieces ++
      (c.rest ++ ⟨.token .closeParen, c.closer⟩ :: Q))) (by rw [hcutP]; simp) commas (o := none)
      fun _ => rfl
    rw [← countIn_append, hcountHead, List.append_assoc] at hwalk
    have hlast : ∀ p ∈ (A ++ (c.head ++ e.sep)).getLast?, ∀ k, p.kind = .token k → k.seals = true := by
      intro p hp k hk
      obtain hsep | hsep := eq_or_ne e.sep []
      · obtain ⟨F, hF⟩ := c.exists_head
        rw [hsep, List.append_nil, hF, ← List.append_assoc, List.getLast?_concat] at hp
        obtain rfl := Option.some.inj hp
        obtain rfl := PieceKind.token.inj hk
        rfl
      · rw [← List.append_assoc, List.getLast?_append_of_ne_nil _ hsep] at hp
        exact seals_of_commas commas (List.mem_of_getLast? hp) hk
    have hinside : countIn (A ++ (c.head ++ e.sep)) + countIn e.item +
        countIn (es.flatMap ListEntry.pieces) + countIn c.rest = countIn A + countIn c.pieces - 1 := by
      rw [c.countIn_pieces, ChainCall.body, hes, List.flatMap_cons, ListEntry.pieces]
      simp only [countIn_append, c.countIn_head]
      omega
    have hoffset : Reading.extent (A ++ c.head) + Reading.extent e.sep =
        Reading.extent (A ++ (c.head ++ e.sep)) := by
      simp only [extent_append, Nat.add_assoc]
    have hchanges := changes_of_items hl hsp reach (isCall_of_cut hl hcut) c.commas
      (h.extend (c.head ++ e.sep)) hcutP hinside item rest ⟨_, hwalk⟩ hlast hoffset hread hkept
    have hspans : ((c.read imports (Reading.extent A)).arguments.map Argument.span).zip
        (c.entries.map f) = flagged f (Reading.extent (A ++ c.head)) (e :: es) := by
      rw [ChainCall.read, extent_append, hes]
      rfl
    have hthin : (c.without f).body =
        e.sep ++ (thin f (some []) (e :: es)).flatMap ListEntry.pieces ++ c.rest := by
      rw [← pieces_thin f e.sep hkept, ← thin_none, ← hes]
      rfl
    have hnew : (c.without f).pieces = c.head ++ ((e.sep ++
        (thin f (some []) (e :: es)).flatMap ListEntry.pieces ++ c.rest) ++
          [⟨.token .closeParen, c.closer⟩]) := by
      rw [ChainCall.pieces, hthin]
      rfl
    rw [Edit.dropItems, hspans, hnew]
    have hold : c.pieces = c.head ++ (e.sep ++ (e.item ++ (es.flatMap ListEntry.pieces ++
        (c.rest ++ [⟨.token .closeParen, c.closer⟩])))) := by
      rw [ChainCall.pieces, ChainCall.body, hes]
      simp [ListEntry.pieces]
    rw [hold]
    simpa only [List.append_assoc] using hchanges

end Crosslink.FluentChain
