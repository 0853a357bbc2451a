import Mathlib.Data.List.Infix
import Mathlib.Data.List.Nodup
import Crosslink.Proofs.Relocating

/-!
# Links put into a chain

Links are put into a chain after the last call that declares some, and links without coverage that
are to have it leave their calls for a new one, or their call is renamed. Read again, the test
declares the links asked for and keeps all others.

* §1 What a chain declares.
* §2 `Injected`, what injection does to the links of a test.
* §3 `changes_of_inject`, its splices as changes of the chain.
* §4 `inject_exact`.
-/

namespace Crosslink.FluentChain

open Source Source.TokenSequence

variable {source : Text} {l : TokenSequence} {imports : Imports} {t : Test} {w : Target}
  {wanted targets : List Target} {covers : Bool} {cs : List ChainCall}

/-! ## 1. What a chain declares -/

/-- The links the calls of a test declare. -/
def Test.links (t : Test) : List Link := t.linkCalls.flatMap Call.links

theorem declares_iff : (t.linkCalls.any fun c => c.targets.contains (some w)) = true ↔
    ∃ k ∈ t.links, k.target = w := by
  simp only [Test.links, List.any_eq_true, List.contains_iff_mem, List.mem_flatMap]
  constructor
  · rintro ⟨c, hc, hw⟩
    exact ⟨⟨w, c.covers⟩, ⟨c, hc, List.mem_filterMap.mpr ⟨some w, hw, rfl⟩⟩, rfl⟩
  · rintro ⟨k, ⟨c, hc, hk⟩, rfl⟩
    obtain ⟨u, hu, hku⟩ := List.mem_filterMap.mp hk
    obtain ⟨v, rfl, rfl⟩ := Option.map_eq_some_iff.mp hku
    exact ⟨c, hc, hu⟩

theorem covered_iff : (t.linkCalls.any fun c => c.covers && c.targets.contains (some w)) = true ↔
    ⟨w, true⟩ ∈ t.links := by
  simp only [Test.links, List.any_eq_true, Bool.and_eq_true, List.contains_iff_mem, List.mem_flatMap]
  constructor
  · rintro ⟨c, hc, hcovers, hw⟩
    exact ⟨c, hc, List.mem_filterMap.mpr ⟨some w, hw, by rw [hcovers]; rfl⟩⟩
  · rintro ⟨c, hc, hk⟩
    obtain ⟨u, hu, hku⟩ := List.mem_filterMap.mp hk
    obtain ⟨v, rfl, hv⟩ := Option.map_eq_some_iff.mp hku
    obtain ⟨rfl, hcovers⟩ := Link.mk.inj hv
    exact ⟨c, hc, hcovers, hu⟩

/-- The links to upgrade are the wanted ones that are declared, but not with coverage. -/
theorem mem_upgraded : w ∈ upgraded t wanted covers ↔ w ∈ wanted ∧ covers = true ∧
    (∃ k ∈ t.links, k.target = w) ∧ ⟨w, true⟩ ∉ t.links := by
  rw [upgraded, List.mem_filter, Bool.and_eq_true, Bool.and_eq_true, declares_iff, and_assoc,
    Bool.not_eq_true', ← Bool.not_eq_true, covered_iff]

/-- A wanted link that no call declares is appended. -/
theorem mem_appended_of_absent {ups : List Target} (hw : w ∈ wanted)
    (h : ∀ k ∈ t.links, k.target ≠ w) : w ∈ appended t wanted ups := by
  refine List.mem_filter.mpr ⟨hw, ?_⟩
  rw [if_neg]
  rw [declares_iff]
  rintro ⟨k, hk, he⟩
  exact h k hk he

/-- An upgraded link is appended, or a call that is renamed declares it. -/
theorem mem_appended_or {ups : List Target} (hw : w ∈ wanted) (hup : w ∈ ups) :
    w ∈ appended t wanted ups ∨
      ∃ c ∈ t.linkCalls, some w ∈ c.targets ∧ allMarked ups c = true := by
  by_cases hr : (t.linkCalls.any fun c => c.targets.contains (some w) && allMarked ups c) = true
  · obtain ⟨c, hc, hboth⟩ := List.any_eq_true.mp hr
    obtain ⟨hmem, hall⟩ := Bool.and_eq_true_iff.mp hboth
    exact .inr ⟨c, hc, List.contains_iff_mem.mp hmem, hall⟩
  · refine .inl (List.mem_filter.mpr ⟨hw, ?_⟩)
    split
    · rw [Bool.and_eq_true, Bool.not_eq_true']
      exact ⟨List.contains_iff_mem.mpr hup, Bool.eq_false_iff.mpr hr⟩
    · rfl

/-! ## 2. What injection does to the links -/

/-- True for a target that no link of these declares. -/
def absent (links : List Link) (w : Target) : Bool := links.all fun k => k.target ≠ w

/-- What injecting the targets `wanted` makes of the links `old`. -/
structure Injected (wanted : List Target) (covers : Bool) (old new : List Link) : Prop where
  /-- Every target is declared, with coverage if that is asked for. -/
  declared : ∀ w ∈ wanted, ∃ k ∈ new, k.target = w ∧ (covers = true → k.covers = true)
  /-- A target that was absent is declared once, with the coverage asked for. -/
  once : ∀ w ∈ wanted, absent old w = true → new.filter (·.target = w) = [⟨w, covers⟩]
  /-- After the links left in the old calls, whose targets were declared before, come those of the
  new calls, and the absent targets among these come in the order they were asked for. -/
  order : ∃ kept added, new = kept ++ added ∧
    (kept.map Link.target).Sublist (old.map Link.target) ∧
    added.filter (fun k => absent old k.target) =
      (wanted.eraseDups.filter (absent old)).map fun w => ⟨w, covers⟩
  /-- Links to other targets stay as they are. -/
  others : new.filter (unwanted wanted) = old.filter (unwanted wanted)
  /-- No link with coverage is lost. -/
  coverage : ∀ k ∈ old, k.covers = true → k ∈ new

theorem absent_iff {links : List Link} : absent links w = true ↔ ∀ k ∈ links, k.target ≠ w := by
  simp [absent]

theorem nodup_eraseDups {α : Type} [BEq α] [LawfulBEq α] (n : Nat) (xs : List α) (hn : xs.length ≤ n) :
    xs.eraseDups.Nodup := by
  induction n generalizing xs with
  | zero =>
    rw [List.length_eq_zero_iff.mp (Nat.le_zero.mp hn)]
    simp
  | succ n ih =>
    cases xs with
    | nil => simp
    | cons x xs =>
      rw [List.eraseDups_cons]
      have hlen : (xs.filter fun b => !b == x).length ≤ n := by
        have := List.length_filter_le (fun b => !b == x) xs
        simp only [List.length_cons] at hn
        omega
      refine List.nodup_cons.mpr ⟨fun hmem => ?_, ih _ hlen⟩
      rw [List.mem_eraseDups, List.mem_filter] at hmem
      simp at hmem

theorem filter_unwanted {ups : List Target} (hups : ∀ w ∈ ups, w ∈ wanted) (links : List Link) :
    (links.filter (unwanted ups)).filter (unwanted wanted) = links.filter (unwanted wanted) := by
  rw [List.filter_filter]
  refine List.filter_congr fun k _ => ?_
  by_cases hk : k.target ∈ wanted
  · simp [unwanted, hk]
  · simp [unwanted, hk, mt (hups k.target) hk]

/-- The links left in the old calls and those of the calls that are appended, together. -/
theorem injected_of_parts {old kept : List Link} (ups : List Target) {p : Target → Bool}
    (hups : ∀ w ∈ ups, w ∈ wanted ∧ covers = true ∧ ⟨w, true⟩ ∉ old)
    (hall : ∀ w ∈ wanted, (∃ k ∈ old, k.target = w) → covers = true → ⟨w, true⟩ ∉ old → w ∈ ups)
    (hrest : kept.filter (unwanted ups) = old.filter (unwanted ups))
    (htargets : (kept.map Link.target).Sublist (old.map Link.target))
    (habsent : ∀ w ∈ wanted, absent old w = true → p w = true)
    (hmoved : ∀ w ∈ ups, p w = true ∨ ⟨w, true⟩ ∈ kept) :
    Injected wanted covers old (kept ++ (wanted.eraseDups.filter p).map fun w => ⟨w, covers⟩) := by
  have hkept : ∀ k ∈ old, k.target ∉ ups → k ∈ kept := by
    intro k hk hup
    have hmem : k ∈ old.filter (unwanted ups) := List.mem_filter.mpr ⟨hk, by simp [unwanted, hup]⟩
    rw [← hrest] at hmem
    exact (List.mem_filter.mp hmem).1
  have hadded : ∀ w ∈ wanted, p w = true →
      ⟨w, covers⟩ ∈ kept ++ (wanted.eraseDups.filter p).map fun w => (⟨w, covers⟩ : Link) := by
    intro w hw hp
    exact List.mem_append_right _ (List.mem_map.mpr
      ⟨w, List.mem_filter.mpr ⟨List.mem_eraseDups.mpr hw, hp⟩, rfl⟩)
  refine ⟨fun w hw => ?_, fun w hw hwabsent => ?_, ⟨kept, _, rfl, htargets, ?_⟩, ?_, fun k hk hcov => ?_⟩
  · by_cases hup : w ∈ ups
    · obtain ⟨-, hcovers, -⟩ := hups w hup
      obtain hp | hmem := hmoved w hup
      · exact ⟨_, hadded w hw hp, rfl, id⟩
      · exact ⟨_, List.mem_append_left _ hmem, rfl, fun _ => rfl⟩
    · by_cases hold : ∃ k ∈ old, k.target = w
      · by_cases hcov : covers = true ∧ ⟨w, true⟩ ∈ old
        · exact ⟨_, List.mem_append_left _ (hkept _ hcov.2 hup), rfl, fun _ => rfl⟩
        · obtain ⟨k, hk, rfl⟩ := hold
          refine ⟨k, List.mem_append_left _ (hkept k hk hup), rfl, fun hcovers => ?_⟩
          exact absurd (hall _ hw ⟨k, hk, rfl⟩ hcovers fun hmem => hcov ⟨hcovers, hmem⟩) hup
      · have hp := habsent w hw (absent_iff.mpr fun k hk he => hold ⟨k, hk, he⟩)
        exact ⟨_, hadded w hw hp, rfl, id⟩
  · -- what is kept was declared before, and the wanted targets are told apart
    have hnone : kept.filter (·.target = w) = [] := by
      refine List.filter_eq_nil_iff.mpr fun k hk he => ?_
      obtain ⟨k', hk', he'⟩ := List.mem_map.mp (htargets.subset (List.mem_map_of_mem hk))
      exact absent_iff.mp hwabsent k' hk' (he'.trans (of_decide_eq_true he))
    have hmem : w ∈ wanted.eraseDups.filter p :=
      List.mem_filter.mpr ⟨List.mem_eraseDups.mpr hw, habsent w hw hwabsent⟩
    have hnodup := (nodup_eraseDups _ wanted (Nat.le_refl _)).filter p
    rw [List.filter_append, hnone, List.nil_append, List.filter_map]
    have hone : (wanted.eraseDups.filter p).filter (fun u => decide (u = w)) = [w] := by
      rw [List.filter_eq, List.count_eq_one_of_mem hnodup hmem]
      rfl
    exact congrArg (List.map fun w => (⟨w, covers⟩ : Link)) hone
  · rw [List.filter_map]
    refine congrArg (List.map fun w => (⟨w, covers⟩ : Link)) ?_
    rw [List.filter_filter]
    refine List.filter_congr fun w hw => ?_
    by_cases habs : absent old w = true
    · simp [habs, habsent w (List.mem_eraseDups.mp hw) habs]
    · simp [habs]
  · have hnone : ((wanted.eraseDups.filter p).map fun w => (⟨w, covers⟩ : Link)).filter
        (unwanted wanted) = [] := by
      refine List.filter_eq_nil_iff.mpr fun k hk => ?_
      obtain ⟨w, hw, rfl⟩ := List.mem_map.mp hk
      simp [unwanted, List.mem_eraseDups.mp (List.mem_filter.mp hw).1]
    have hsub : ∀ w ∈ ups, w ∈ wanted := fun w hw => (hups w hw).1
    rw [List.filter_append, hnone, List.append_nil, ← filter_unwanted hsub, hrest, filter_unwanted hsub]
  · refine List.mem_append_left _ (hkept k hk fun hup => ?_)
    obtain ⟨-, -, hnot⟩ := hups _ hup
    refine hnot ?_
    rw [← hcov]
    exact hk

/-! ## 3. The splices of an injection -/

/-- What stands before the arrow of a chained call. -/
theorem slice_gap {A Q : List Piece} {c : ChainCall} (hcut : cut source = A ++ (c.pieces ++ Q)) :
    (c.read imports (Reading.extent A)).gap.slice source = c.lead.flatMap Piece.text := by
  have hsource : source = A.flatMap Piece.text ++ (c.lead.flatMap Piece.text ++
      (⟨.token .arrow, c.arrow⟩ :: (c.inner ++ ⟨.token .name, c.name⟩ :: c.back) ++ Q).flatMap
        Piece.text) := by
    conv => lhs; rw [source_eq hcut]
    simp [c.pieces_eq, ChainCall.front]
  rw [hsource]
  exact Text.slice_middle _ _ _

/-- The blanks to put before a new call are ASCII blanks. -/
theorem blank_callGap {A Q : List Piece} {c : Nat} (h : Standing source l imports c t A cs Q) :
    ∀ ch ∈ callGap source t, isAsciiBlank ch = true := by
  have hcall : ∀ d ∈ t.chain, (d.gap.slice source).all isBlank = true →
      ∀ ch ∈ d.gap.slice source, isAsciiBlank ch = true := by
    intro d hd hblank
    rw [h.chain] at hd
    obtain ⟨cs₁, e, cs₂, rfl, rfl⟩ := exists_of_mem_readChain hd
    have hcut : cut source = (A ++ cs₁.flatMap ChainCall.pieces) ++
        (e.pieces ++ (cs₂.flatMap ChainCall.pieces ++ Q)) := by
      rw [h.cut]
      simp
    rw [← extent_append, slice_gap hcut] at hblank ⊢
    have hcode := cut_suffix hcut (closes_calls h.closes cs₁).ne_nil
    rw [e.pieces_eq, ChainCall.front, List.append_assoc, List.append_assoc] at hcode
    exact asciiBlank_of_gap hcode e.lead_gap (fun p hp => e.ends p (by simp [hp]))
      (List.all_eq_true.mp hblank)
  have hmem : ∀ d, (t.linkCalls.getLast? <|> t.chain.head?) = some d → d ∈ t.chain := by
    intro d hd
    cases hlast : t.linkCalls.getLast? with
    | some e =>
      rw [hlast] at hd
      obtain rfl : e = d := by simpa using hd
      exact (List.mem_filter.mp (List.mem_of_getLast? hlast)).1
    | none =>
      rw [hlast] at hd
      exact List.mem_of_head? (by simpa using hd)
  unfold callGap
  split
  · rename_i d hd
    simp only
    split
    · rename_i hblank
      exact hcall d (hmem d hd) hblank
    · simp
  · simp

theorem tag_of_not_mem {x y : Text} (hx : '<' ∉ x) (h : "<?".toList <:+: x ++ y) :
    "<?".toList <:+: y := by
  obtain h | h | ⟨h, -⟩ := infix_of_append h
  · exact absurd (h.subset (by simp)) hx
  · exact h
  · exact absurd (List.mem_of_getLast? h) hx

/-- A tag in calls that are written stands in one of their arguments. -/
theorem tag_of_written {g : Text} (hg : ∀ ch ∈ g, isAsciiBlank ch = true)
    (h : "<?".toList <:+: targets.flatMap fun w => g ++ writeCall imports w covers) :
    ∃ w ∈ targets, "<?".toList <:+: writeArgument imports w := by
  induction targets with
  | nil => exact absurd (h.subset (a := '<') (by simp)) (by simp)
  | cons w ws ih =>
    have hcall : (w :: ws).flatMap (fun w => g ++ writeCall imports w covers) =
        (g ++ ("->" ++ callName covers ++ "(")) ++ (writeArgument imports w ++
          (")" ++ ws.flatMap fun w => g ++ writeCall imports w covers)) := by
      rw [List.flatMap_cons, writeCall, callName]
      simp only [List.append_assoc]
    have hfront : '<' ∉ g ++ ("->" ++ callName covers ++ "(" : Text) := by
      intro hmem
      obtain hmem | hmem := List.mem_append.mp hmem
      · exact absurd (hg _ hmem) (by decide)
      · revert hmem
        cases covers <;> decide
    rw [hcall] at h
    obtain h | h | ⟨-, h⟩ := infix_of_append (tag_of_not_mem hfront h)
    · exact ⟨w, by simp, h⟩
    · obtain ⟨u, hu, htag⟩ := ih (tag_of_not_mem (by decide) h)
      exact ⟨u, List.mem_cons_of_mem _ hu, htag⟩
    · cases h

/-- What is required of the targets to put into a source: their arguments can be read back, and they
bring neither a code tag into a source without one nor the word `use`. -/
structure Writable (source : Text) (imports : Imports) (w : Target) : Prop where
  back : ReadsBack imports w
  tag : "<?".toList <:+: writeArgument imports w → "<?".toList <:+: source
  use : ∀ x, Expression.parse (writeArgument imports w) = .ok x →
    ∀ n ∈ x.names, Text.sameLetters n "use" = false

instance : Decidable (Writable source imports w) :=
  decidable_of_iff (ReadsBack imports w ∧
      ("<?".toList <:+: writeArgument imports w → "<?".toList <:+: source) ∧
      (Expression.parse (writeArgument imports w)).toOption.all
        (fun x => x.names.all fun n => Text.sameLetters n "use" = false) = true)
    ⟨fun h => ⟨h.1, h.2.1, fun x hx n hn => by
        have huse := h.2.2
        rw [hx] at huse
        exact of_decide_eq_true (List.all_eq_true.mp (huse : List.all _ _ = true) n hn)⟩,
      fun h => ⟨h.back, h.tag, by
        cases hx : Expression.parse (writeArgument imports w) with
        | error e => rfl
        | ok x => exact List.all_eq_true.mpr fun n hn => decide_eq_true (h.use x hx n hn)⟩⟩

/-- What is required of the targets to put into a source for nothing else to be read in another way: their
arguments can be read, and they bring neither a code tag into a source without one nor the word `use`. -/
structure Admissible (source : Text) (imports : Imports) (w : Target) : Prop where
  spelled : Spelled imports w
  tag : "<?".toList <:+: writeArgument imports w → "<?".toList <:+: source
  use : ∀ x, Expression.parse (writeArgument imports w) = .ok x →
    ∀ n ∈ x.names, Text.sameLetters n "use" = false

theorem Writable.admissible (h : Writable source imports w) : Admissible source imports w :=
  ⟨spelled_of_readsBack h.back, h.tag, h.use⟩

/-- The splices that inject links are changes of the chain: they upgrade its calls, and put new calls
after the last that declares links. -/
theorem changes_of_inject {file : File} {i o c : Nat} {keyword : Keyword} {A Q : List Piece}
    (hsited : Sited source l file i o c keyword t) (h : Standing source l file.imports c t A cs Q)
    (hsp : Spaced (cut source)) (hw : ∀ w ∈ targets, Admissible source file.imports w) (covers : Bool) :
    ∃ cs₁ cs₂ ws, cs = cs₁ ++ cs₂ ∧ (∀ d ∈ cs₂, d.isLink = false) ∧
      t.case.declarationPoint = Reading.extent (A ++ cs₁.flatMap ChainCall.pieces) ∧
      ((∀ w ∈ targets, ReadsBack file.imports w) → ws.map (fun w => (w.name, w.targets file.imports)) =
        (appended t targets.eraseDups (upgraded t targets.eraseDups covers)).map
          (fun w => (callName covers, [some w]))) ∧
      Changes l (c + 1) ("<?".toList <:+: source) (A ++ cs₁.flatMap ChainCall.pieces)
        (injectSplices source file t targets covers)
        (A ++ (cs₁.flatMap (ChainCall.upgraded file.imports (upgraded t targets.eraseDups covers)) ++
          ws).flatMap ChainCall.pieces) := by
  obtain ⟨cs₁, cs₂, rfl, hnone, hlast⟩ := exists_last_link cs
  have hpoint := h.point hsited hnone hlast
  have hcut₁ : cut source = A ++ (cs₁.flatMap ChainCall.pieces ++
      (cs₂.flatMap ChainCall.pieces ++ Q)) := by
    rw [h.cut]
    simp
  generalize hups : upgraded t targets.eraseDups covers = ups
  generalize happ : appended t targets.eraseDups ups = app
  have hsub : ∀ w ∈ app, w ∈ targets := by
    intro w hmem
    rw [← happ] at hmem
    exact List.mem_eraseDups.mp (List.mem_filter.mp hmem).1
  have hblank := blank_callGap h
  have hspelled : ∀ w ∈ app, Spelled file.imports w := fun w hmem => (hw w (hsub w hmem)).spelled
  obtain ⟨ws, htext, hnames, hcalls, huse⟩ := exists_written_all hblank hspelled covers
  have hreach : Reaches l (c + 1) (countIn A) := by
    rw [h.count]
    exact .refl _
  have hall : ∀ d ∈ cs₁, Amends source l file.imports (c + 1) ("<?".toList <:+: source)
      (onLinks (upgradeCall ups)) (ChainCall.upgraded file.imports ups) d :=
    fun d _ => amends_upgrade hsited.read hsp
  have hupgrade := changes_of_calls hsited.read hall hreach h.closes (.nil A) hcut₁
  rw [List.nil_append] at hupgrade
  have hfirst : (readChain file.imports (Reading.extent A) cs₁).flatMap (onLinks (upgradeCall ups)) =
      t.linkCalls.flatMap (upgradeCall ups) := by
    rw [flatMap_onLinks, Test.linkCalls, h.chain, readChain_append, List.filter_append,
      filter_readChain_of_none _ _ hnone, List.append_nil]
  rw [hfirst] at hupgrade
  have hsplices : injectSplices source file t targets covers =
      t.linkCalls.flatMap (upgradeCall ups) ++
        (if (app.flatMap fun w => callGap source t ++ writeCall file.imports w covers) = [] then []
          else [.insert t.case.declarationPoint
            (app.flatMap fun w => callGap source t ++ writeCall file.imports w covers)]) := by
    rw [injectSplices, hups, happ]
  refine ⟨cs₁, cs₂, ws, rfl, hnone, hpoint, fun hback => hnames fun w hmem => hback w (hsub w hmem), ?_⟩
  rw [hsplices, ← htext, List.flatMap_append, ← List.append_assoc]
  split
  · rename_i hempty
    -- a call that is written is not empty, so there is none
    have hws : ws = [] := by
      cases app with
      | nil => exact List.map_eq_nil_iff.mp (hnames (by simp))
      | cons w app =>
        rw [htext, List.flatMap_cons, writeCall] at hempty
        simp at hempty
    subst hws
    simpa using hupgrade
  · have hreach₁ : Reaches l (c + 1) (countIn (A ++ cs₁.flatMap ChainCall.pieces)) := by
      have := reaches_of_cut hsited.read hcut₁
      rwa [h.count] at this
    have hinsert := changes_of_insert hreach₁ (closes_calls h.closes cs₁) hupgrade hcalls
      (fun hv => ?_) (fun ht => ?_)
    · rwa [← hpoint] at hinsert
    · obtain ⟨w, hmem, x, hx, n, hn, hsame⟩ := huse hv
      rw [(hw w (hsub w hmem)).use x hx n hn] at hsame
      cases hsame
    · rw [htext] at ht
      obtain ⟨w, hmem, htag⟩ := tag_of_written hblank ht
      exact (hw w (hsub w hmem)).tag htag

/-! ## 4. Injection -/

theorem links_of_not_link {d : ChainCall} (h : d.isLink = false) : d.links imports = [] := by
  rw [ChainCall.links, if_neg (by simp [h])]

theorem links_of_none {ds : List ChainCall} (h : ∀ d ∈ ds, d.isLink = false) :
    ds.flatMap (ChainCall.links imports) = [] :=
  List.flatMap_eq_nil_iff.mpr fun d hd => links_of_not_link (h d hd)

theorem upgraded_of_none {ups : List Target} {ds : List ChainCall} (h : ∀ d ∈ ds, d.isLink = false) :
    ds.flatMap (ChainCall.upgraded imports ups) = ds := by
  induction ds with
  | nil => rfl
  | cons d ds ih =>
    rw [List.flatMap_cons, ih fun e he => h e (List.mem_cons_of_mem _ he), ChainCall.upgraded,
      ChainCall.edited, if_neg (by simp [h d (by simp)])]
    rfl

/-- The calls that are written declare the links they are written for. -/
theorem links_of_written {ws : List ChainCall} {app : List Target}
    (h : ws.map (fun w => (w.name, w.targets imports)) = app.map fun w => (callName covers, [some w])) :
    ws.flatMap (ChainCall.links imports) = app.map fun w => ⟨w, covers⟩ := by
  induction ws generalizing app with
  | nil =>
    obtain rfl : app = [] := List.map_eq_nil_iff.mp h.symm
    rfl
  | cons d ds ih =>
    cases app with
    | nil => cases h
    | cons w app =>
      obtain ⟨hfirst, hrest⟩ := List.cons.inj h
      obtain ⟨hname, htargets⟩ := Prod.mk.inj hfirst
      have hlinks : d.links imports = [⟨w, covers⟩] := by
        have hlink : d.isLink = true := by
          rw [ChainCall.isLink, hname]
          cases covers <;> rfl
        have hcovers : (d.name == coveringCall) = covers := by
          rw [hname]
          cases covers
          · exact beq_false_of_ne (by decide)
          · exact beq_self_eq_true _
        rw [ChainCall.links, if_pos hlink, htargets, hcovers]
        rfl
      rw [List.flatMap_cons, hlinks, ih hrest, List.map_cons, List.singleton_append]

/-- A call is left as it is when nothing is upgraded. -/
theorem upgradeCall_nil (c : Call) : upgradeCall [] c = [] := by
  have hmarks : (marks [] c).any id = false := by
    rw [marks, List.any_map, List.any_eq_false]
    intro u _
    cases u <;> simp
  rw [upgradeCall, allMarked, hmarks]
  simp

/-- Where all targets are declared as asked for, there is nothing to inject. -/
theorem injectSplices_eq_nil {file : File}
    (h : ∀ w ∈ targets, ∃ k ∈ t.links, k.target = w ∧ (covers = true → k.covers = true)) :
    injectSplices source file t targets covers = [] := by
  have hups : upgraded t targets.eraseDups covers = [] := by
    refine List.eq_nil_iff_forall_not_mem.mpr fun w hw => ?_
    obtain ⟨hmem, hcovers, -, hnot⟩ := mem_upgraded.mp hw
    obtain ⟨k, hk, rfl, hcov⟩ := h w (List.mem_eraseDups.mp hmem)
    refine hnot ?_
    rw [← hcov hcovers]
    exact hk
  have happ : appended t targets.eraseDups [] = [] := by
    refine List.filter_eq_nil_iff.mpr fun w hw => ?_
    obtain ⟨k, hk, rfl, -⟩ := h w (List.mem_eraseDups.mp hw)
    rw [if_pos (declares_iff.mpr ⟨k, hk, rfl⟩)]
    simp
  rw [injectSplices, hups, happ]
  simp [upgradeCall_nil]

theorem inject_eq {file : File} {r : TestCase} {names : List Text}
    (hlocate : locate source r = .ok (file, t)) (hnames : parseTargets names = .ok targets)
    (covers : Bool) : inject source r names covers =
      applyEdit source (injectSplices source file t targets covers) := by
  simp only [inject, hlocate, hnames, bind, Except.bind]

/-- The links of a test after an injection, call by call. -/
theorem injected_of_calls {file : File} {i o c : Nat} {keyword : Keyword} {A Q : List Piece}
    {cs₁ cs₂ ws : List ChainCall} (hsited : Sited source l file i o c keyword t)
    (h : Standing source l file.imports c t A (cs₁ ++ cs₂) Q) (hnone : ∀ d ∈ cs₂, d.isLink = false)
    (hws : ws.map (fun w => (w.name, w.targets file.imports)) =
      (appended t targets.eraseDups (upgraded t targets.eraseDups covers)).map
        fun w => (callName covers, [some w])) :
    Injected targets covers t.case.links
      ((cs₁.flatMap (ChainCall.upgraded file.imports (upgraded t targets.eraseDups covers)) ++ ws ++
        cs₂).flatMap (ChainCall.links file.imports)) := by
  have hold : t.case.links = t.links := hsited.case_links
  have hchain : t.links = (cs₁ ++ cs₂).flatMap (ChainCall.links file.imports) := by
    rw [← hold, hsited.links h]
  generalize hups : upgraded t targets.eraseDups covers = ups at hws ⊢
  have hnew : (cs₁.flatMap (ChainCall.upgraded file.imports ups) ++ ws ++ cs₂).flatMap
        (ChainCall.links file.imports) =
      ((cs₁ ++ cs₂).flatMap (ChainCall.upgraded file.imports ups)).flatMap
        (ChainCall.links file.imports) ++ (appended t targets.eraseDups ups).map fun w => ⟨w, covers⟩ := by
    simp only [List.flatMap_append, links_of_none hnone, upgraded_of_none hnone, links_of_written hws,
      List.append_nil]
  obtain ⟨p, hp⟩ : ∃ p, ∀ wanted, appended t wanted ups = wanted.filter p := ⟨_, fun _ => rfl⟩
  have hmem : ∀ {w}, w ∈ targets.eraseDups → w ∈ appended t targets.eraseDups ups → p w = true := by
    intro w _ happ
    rw [hp] at happ
    exact (List.mem_filter.mp happ).2
  rw [hnew, hold, hp]
  refine injected_of_parts ups (fun w hw => ?_) (fun w hw hdecl hcovers hnot => ?_) ?_ ?_
    (fun w hw habs => ?_) fun w hw => ?_
  · rw [← hups] at hw
    obtain ⟨hmem, hcovers, -, hnot⟩ := mem_upgraded.mp hw
    exact ⟨List.mem_eraseDups.mp hmem, hcovers, hnot⟩
  · rw [← hups]
    exact mem_upgraded.mpr ⟨List.mem_eraseDups.mpr hw, hcovers, hdecl, hnot⟩
  · rw [hchain]
    exact links_upgraded _
  · rw [hchain]
    exact targets_upgraded _
  · have hw' := List.mem_eraseDups.mpr hw
    exact hmem hw' (mem_appended_of_absent hw' (absent_iff.mp habs))
  · have hw' : w ∈ targets.eraseDups := by
      rw [← hups] at hw
      exact (mem_upgraded.mp hw).1
    obtain happ | ⟨d, hd, hwd, hall⟩ := mem_appended_or hw' hw
    · exact .inl (hmem hw' happ)
    · refine .inr ?_
      obtain ⟨hd, hlink⟩ := List.mem_filter.mp hd
      rw [h.chain] at hd
      obtain ⟨ds₁, e, ds₂, hds, rfl⟩ := exists_of_mem_readChain hd
      rw [allMarked_read, Bool.and_eq_true] at hall
      exact mem_links_upgraded (by rw [hds]; simp) hlink hall.2 hwd

/-- Injection is exact, and once is enough. Wherever a test of a source is recorded, its chain can be
edited; the edited source holds as many tests, the test at the same place declares what was asked for
and all it declared otherwise, and the same injection leaves the edited source as it is. -/
theorem inject_exact {file : File} {i : Nat} {r : TestCase} {names : List Text}
    (hread : File.read source = .ok file) (ht : file.tests[i]? = some t) (hr : Recorded t.case r)
    (hnames : parseTargets names = .ok targets) (hsp : Spaced (cut source))
    (hclear : ClearOfImports source t) (hw : ∀ w ∈ targets, Writable source file.imports w) :
    ∃ out file' t', inject source r names covers = .ok out ∧ File.read out = .ok file' ∧
      file'.tests.length = file.tests.length ∧ file'.tests[i]? = some t' ∧
      Injected targets covers t.case.links t'.case.links ∧
      (∀ j, j ≠ i → (file'.tests[j]?).map (·.case.links) = (file.tests[j]?).map (·.case.links)) ∧
      (∀ r', Recorded t'.case r' → inject out r' names covers = .ok out) ∧
      ((∀ l, tokenize source = .ok l → Titled l source) → inject out r names covers = .ok out) := by
  obtain ⟨l, o, c, keyword, hsited⟩ := exists_sited hread ht
  obtain ⟨A, cs, Q, hstanding⟩ := hsited.exists_standing
  obtain ⟨cs₁, cs₂, ws, rfl, hnone, hpoint, hws, hchanges⟩ :=
    changes_of_inject hsited hstanding hsp (fun w hmem => (hw w hmem).admissible) covers
  replace hws := hws fun w hmem => (hw w hmem).back
  have hcut : cut source = (A ++ cs₁.flatMap ChainCall.pieces) ++
      (cs₂.flatMap ChainCall.pieces ++ Q) := by
    rw [hstanding.cut]
    simp
  have hcut' : A ++ (cs₁.flatMap (ChainCall.upgraded file.imports
        (upgraded t targets.eraseDups covers)) ++ ws).flatMap ChainCall.pieces ++
      (cs₂.flatMap ChainCall.pieces ++ Q) =
      A ++ ((cs₁.flatMap (ChainCall.upgraded file.imports (upgraded t targets.eraseDups covers)) ++ ws ++
        cs₂).flatMap ChainCall.pieces ++ Q) := by
    simp
  obtain ⟨out, l', file', t', happly, hedited, -, hsited', hstanding'⟩ := exists_edited hsited
    hstanding.closes hstanding.count hchanges hcut (List.prefix_append _ _) hcut' hstanding.ends hsp
    (hstanding.apart hsited hpoint hclear)
  have hinjected : Injected targets covers t.case.links t'.case.links := by
    rw [hsited'.links hstanding', hedited.imports]
    exact injected_of_calls hsited hstanding hnone hws
  have hagain : ∀ r', Recorded t'.case r' → inject out r' names covers = .ok out := by
    intro r' hr'
    have hdeclared := hinjected.declared
    rw [hsited'.case_links] at hdeclared
    rw [inject_eq (locate_eq hedited.read hedited.test hr') hnames, injectSplices_eq_nil hdeclared,
      applyEdit_nil]
  refine ⟨out, file', t', ?_, hedited.read, hedited.length, hedited.test, hinjected, hedited.others,
    hagain, fun htitled => hagain r ?_⟩
  · rw [inject_eq (locate_eq hread ht hr) hnames, happly]
  · have hT := htitled l hsited.read
    exact ⟨hr.name.trans (hedited.name hT).symm, by rw [hedited.identifier hT]; exact hr.identifier,
      hr.start.trans hedited.start.symm⟩

/-- A source with a class link, a text link and an import. -/
def sampleSource : Text := "<?php\nuse App\\X;\ntest('a')->links(X::class, 'C');\n"

/-- One target of the sample is upgraded, and a method of its class is new. -/
theorem inject_exact_sample : ∃ file t out file' t', File.read sampleSource = .ok file ∧
    file.tests[0]? = some t ∧ t.case.links = [⟨⟨"App\\X", none⟩, false⟩, ⟨⟨"C", none⟩, false⟩] ∧
    inject sampleSource t.case ["App\\X", "App\\X::m"] true = .ok out ∧ File.read out = .ok file' ∧
    file'.tests[0]? = some t' ∧
    Injected [⟨"App\\X", none⟩, ⟨"App\\X", some "m"⟩] true t.case.links t'.case.links := by
  have h : ((File.read sampleSource).toOption.any fun file => file.tests[0]?.any fun t =>
      (t.case.links = [⟨⟨"App\\X", none⟩, false⟩, ⟨⟨"C", none⟩, false⟩] && usesBefore sampleSource t) &&
        ([⟨"App\\X", none⟩, ⟨"App\\X", some "m"⟩] : List Target).all fun w =>
          Writable sampleSource file.imports w) = true := by decide +kernel
  obtain ⟨file, hfile, h⟩ := (Option.any_eq_true _ _).mp h
  obtain ⟨t, ht, h⟩ := (Option.any_eq_true _ _).mp h
  obtain ⟨htest, hw⟩ := Bool.and_eq_true_iff.mp h
  obtain ⟨hlinks, huses⟩ := Bool.and_eq_true_iff.mp htest
  have hread := eq_ok_of_toOption hfile
  have hnames : parseTargets ["App\\X", "App\\X::m"] =
      .ok [⟨"App\\X", none⟩, ⟨"App\\X", some "m"⟩] := by decide +kernel
  obtain ⟨out, file', t', hout, hagain, -, ht', hinjected, -⟩ := @inject_exact _ _ _ true _ _ _ _
    hread ht (.refl _) hnames (by decide +kernel) (clearOfImports_of_usesBefore huses)
    fun w hmem => of_decide_eq_true (List.all_eq_true.mp hw w hmem)
  exact ⟨file, t, out, file', t', hread, ht, of_decide_eq_true hlinks, hout, hagain, ht', hinjected⟩

/-! ## 5. Where injection is inexact -/

/-- The first test of a source. -/
def firstCase (source : Text) : Option TestCase := (readTests source).toOption.bind List.head?

/-- The links of the first test of a source. -/
def firstLinks (source : Text) : Option (List Link) := (firstCase source).map TestCase.links

/-- The splices that inject links into the first test of a source. -/
def firstSplices (source : Text) (names : List Text) (covers : Bool) : Option (List Splice) :=
  (firstCase source).bind fun r => (locate source r).toOption.bind fun found =>
    (parseTargets names).toOption.map fun targets => injectSplices source found.1 found.2 targets covers

/-- The text a source becomes when links are injected into its first test. -/
def injectFirst (source : Text) (names : List Text) (covers : Bool) : Option Text :=
  (firstCase source).bind fun r => (inject source r names covers).toOption

/-- Injecting links into the first test of a source makes it the text `out`, and each argument that is
written for one of them is read back. -/
def Yields (source : Text) (names : List Text) (covers : Bool) (out : Text) : Prop :=
  injectFirst source names covers = some out ∧
    ((File.read source).toOption.any fun file => (parseTargets names).toOption.any fun targets =>
      targets.all fun w => ReadsBack file.imports w) = true

instance (source : Text) (names : List Text) (covers : Bool) (out : Text) :
    Decidable (Yields source names covers out) := inferInstanceAs (Decidable (_ ∧ _))

theorem injectFirst_eq (source : Text) (names : List Text) (covers : Bool) :
    injectFirst source names covers =
      (firstSplices source names covers).bind fun splices => (applyEdit source splices).toOption := by
  unfold injectFirst firstSplices
  cases hr : firstCase source with
  | none => rfl
  | some r =>
    cases hl : locate source r with
    | error e => simp [inject, hl, bind, Except.bind, Except.toOption]
    | ok p =>
      cases hn : parseTargets names with
      | error e => simp [inject, hl, hn, bind, Except.bind, Except.toOption]
      | ok targets => simp [inject, hl, hn, bind, Except.bind, Except.toOption]

/-- Splices in order are carried out as they stand. -/
theorem injectFirst_of_sorted {source out : Text} {names : List Text} {covers : Bool}
    {splices : List Splice} (h : firstSplices source names covers = some splices)
    (hsorted : splices.Pairwise fun a b => Splice.le a b = true)
    (hout : Splice.applyInOrder source splices = .ok out) :
    injectFirst source names covers = some out := by
  rw [injectFirst_eq, h, Option.bind_some, applyEdit_of_sorted hsorted, hout]
  rfl

/-- What is required of the source, the case and the targets is needed, and links that move to new
calls stand among the absent ones. -/
theorem inject_inexact :
    -- `A` was declared, and it stands after `B`, which was not
    (Yields "<?php\ntest('a')->links('A', 'C');\n" ["B", "A"] true
        "<?php\ntest('a')->links('C')->linksAndCovers('B')->linksAndCovers('A');\n" ∧
      firstLinks "<?php\ntest('a')->links('C')->linksAndCovers('B')->linksAndCovers('A');\n" =
        some [⟨⟨"C", none⟩, false⟩, ⟨⟨"B", none⟩, true⟩, ⟨⟨"A", none⟩, true⟩]) ∧
    -- a tag in an argument makes inline markup of what was code
    (Yields "test('a');" ["App\\X::<?"] false "test('a')->links('App\\X::<?');" ∧
      firstLinks "test('a')->links('App\\X::<?');" = none) ∧
    -- a group without a title is named by the text of its block, which has changed
    (Yields "<?php\ndescribe(function () \x7b test('a'); \x7d);\n" ["A"] false
        "<?php\ndescribe(function () \x7b test('a')->links('A'); \x7d);\n" ∧
      ((firstCase "<?php\ndescribe(function () \x7b test('a'); \x7d);\n").bind fun r =>
        (inject "<?php\ndescribe(function () \x7b test('a')->links('A'); \x7d);\n" r ["A"] false).toOption) =
        none) ∧
    -- a class called `Use` is taken for an import, and names after it lose the namespace
    (Yields "<?php\nnamespace N;\nuse App\\Use;\ntest('a')->links(Foo::class)->note(Foo::class);\n"
        ["App\\Use::m"] false ("<?php\nnamespace N;\nuse App\\Use;\n" ++
          "test('a')->links(Foo::class)->links(Use::class.'::m')->note(Foo::class);\n") ∧
      firstLinks "<?php\nnamespace N;\nuse App\\Use;\ntest('a')->links(Foo::class)->note(Foo::class);\n" =
        some [⟨⟨"N\\Foo", none⟩, false⟩] ∧
      firstLinks ("<?php\nnamespace N;\nuse App\\Use;\n" ++
          "test('a')->links(Foo::class)->links(Use::class.'::m')->note(Foo::class);\n") =
        some [⟨⟨"Foo", none⟩, false⟩, ⟨⟨"App\\Use", some "m"⟩, false⟩]) ∧
    -- a slash and what follows the item that leaves make a comment
    (Yields "<?php\ntest('a')->links(/,'A'/*x*/);\n" ["A"] true
        "<?php\ntest('a')->links(//*x*/)->linksAndCovers('A');\n" ∧
      firstLinks "<?php\ntest('a')->links(//*x*/)->linksAndCovers('A');\n" = none) ∧
    -- a short tag and the name after the item that leaves make a long tag
    (Yields "<?php\ntest('a')->links(?><?'A', php::class);\n" ["A"] true
        "<?php\ntest('a')->links(?><?php::class)->linksAndCovers('A');\n" ∧
      firstLinks "<?php\ntest('a')->links(?><?'A', php::class);\n" =
        some [⟨⟨"A", none⟩, false⟩, ⟨⟨"php", none⟩, false⟩] ∧
      firstLinks "<?php\ntest('a')->links(?><?php::class)->linksAndCovers('A');\n" =
        some [⟨⟨"A", none⟩, true⟩]) ∧
    -- the import goes on to the semicolon, and its last name becomes that of the new call
    (Yields "<?php\nnamespace N;\nuse X\ntest('a')->links(linksAndCovers\\Foo::class);\n" ["A"] true
        ("<?php\nnamespace N;\nuse X\n" ++
          "test('a')->links(linksAndCovers\\Foo::class)->linksAndCovers('A');\n") ∧
      firstLinks "<?php\nnamespace N;\nuse X\ntest('a')->links(linksAndCovers\\Foo::class);\n" =
        some [⟨⟨"N\\linksAndCovers\\Foo", none⟩, false⟩] ∧
      firstLinks ("<?php\nnamespace N;\nuse X\n" ++
          "test('a')->links(linksAndCovers\\Foo::class)->linksAndCovers('A');\n") =
        some [⟨⟨"linksAndCovers\\Foo", none⟩, false⟩, ⟨⟨"A", none⟩, true⟩]) := by
  refine ⟨⟨⟨?_, by decide +kernel⟩, by decide +kernel⟩, by decide +kernel, by decide +kernel,
    by decide +kernel, ⟨⟨?_, by decide +kernel⟩, by decide +kernel⟩,
    ⟨⟨?_, by decide +kernel⟩, by decide +kernel⟩, by decide +kernel⟩
  · have hsplices : firstSplices "<?php\ntest('a')->links('A', 'C');\n" ["B", "A"] true =
        some [.delete ⟨23, 28⟩, .insert 32 "->linksAndCovers('B')->linksAndCovers('A')"] := by decide +kernel
    exact injectFirst_of_sorted hsplices (by decide) (by decide +kernel)
  · have hsplices : firstSplices "<?php\ntest('a')->links(/,'A'/*x*/);\n" ["A"] true =
        some [.delete ⟨24, 28⟩, .insert 34 "->linksAndCovers('A')"] := by decide +kernel
    exact injectFirst_of_sorted hsplices (by decide) (by decide +kernel)
  · have hsplices : firstSplices "<?php\ntest('a')->links(?><?'A', php::class);\n" ["A"] true =
        some [.delete ⟨27, 32⟩, .insert 43 "->linksAndCovers('A')"] := by decide +kernel
    exact injectFirst_of_sorted hsplices (by decide) (by decide +kernel)

end Crosslink.FluentChain
