import Mathlib.Data.List.Perm.Basic
import Crosslink.Proofs.Recovering
import Crosslink.Proofs.Upgrading

/-!
# Links that are asked for

Links that a test is to have are written above it, or the attributes that declare them are given coverage.
All of this is done at once, but it comes to the same as writing the groups first and giving coverage to one
attribute after the other, the last one first. The test that is read from the result has the links it had, in
their places, and the new ones after them, and it needs none of them again.

* §1 `Granted`, what becomes of the links of a test.
* §2 `injectOne_eq`, which attribute is given coverage for a link.
* §3 `inject_eq_fold`, the edits one after the other.
* §4 `exists_grown`, the test with the groups that are written for it.
* §5 `inject_granted`, and `inject_ungranted`.
-/

namespace Crosslink.AttributeList

open Source Source.TokenSequence Edit Splice
open FluentChain (absent absent_iff nodup_eraseDups)

variable {source out : Text} {imports : Imports} {m : Method} {wanted targets : List Target} {w : Target}
  {covers : Bool} {links old new : List Link} {k : Link} {i : Nat} {a b : Attribute}
  {as bs : List Attribute}

/-! ## §1 What becomes of the links -/

/-- The links of a list, with coverage for the first one to each of these targets. -/
def covering (wanted : List Target) : List Link → List Link
  | [] => []
  | k :: links =>
    if k.target ∈ wanted then ⟨k.target, true⟩ :: covering (wanted.filter (· ≠ k.target)) links
    else k :: covering wanted links

/-- A link is the first one to its target. -/
def FirstAt (links : List Link) (i : Nat) (w : Target) : Prop := ∀ k ∈ links.take i, k.target ≠ w

instance : Decidable (FirstAt links i w) := inferInstanceAs (Decidable (∀ _ ∈ _, _))

theorem getElem?_covering (h : links[i]? = some k) : (covering wanted links)[i]? =
    some (if k.target ∈ wanted ∧ FirstAt links i k.target then ⟨k.target, true⟩ else k) := by
  induction links generalizing wanted i with
  | nil => cases h
  | cons d links ih =>
    rw [covering]
    cases i with
    | zero =>
      obtain rfl := Option.some.inj h
      by_cases hd : d.target ∈ wanted <;> simp [hd, FirstAt]
    | succ i =>
      replace h : links[i]? = some k := h
      by_cases hd : d.target ∈ wanted
      · rw [if_pos hd, List.getElem?_cons_succ, ih h]
        refine congrArg some (if_congr ?_ rfl rfl)
        rw [List.mem_filter, and_assoc, decide_eq_true_eq, ne_comm]
        simp [FirstAt]
      · have hne : k.target ∈ wanted → d.target ≠ k.target := fun hk he => hd (he ▸ hk)
        rw [if_neg hd, List.getElem?_cons_succ, ih h]
        refine congrArg some (if_congr (and_congr_right fun hk => ?_) rfl rfl)
        simp [FirstAt, hne hk]

theorem map_target_covering : (covering wanted links).map Link.target = links.map Link.target := by
  induction links generalizing wanted with
  | nil => rfl
  | cons d links ih =>
    rw [covering]
    split <;> rw [List.map_cons, List.map_cons, ih]

theorem length_covering : (covering wanted links).length = links.length := by
  simpa using congrArg List.length (@map_target_covering wanted links)

theorem mem_covering (hw : w ∈ wanted) (h : ∃ k ∈ links, k.target = w) : ⟨w, true⟩ ∈ covering wanted links := by
  induction links generalizing wanted with
  | nil => simp at h
  | cons d links ih =>
    rw [covering]
    by_cases hd : d.target = w
    · subst hd
      rw [if_pos hw]
      exact List.mem_cons_self
    · have hrest : ∃ k ∈ links, k.target = w := by simpa [hd] using h
      split
      · exact List.mem_cons_of_mem _ (ih (List.mem_filter.mpr ⟨hw, by simpa using Ne.symm hd⟩) hrest)
      · exact List.mem_cons_of_mem _ (ih hw hrest)

/-- The targets that no link covers, where coverage is asked for. -/
def uncovered (wanted : List Target) (covers : Bool) (links : List Link) : List Target :=
  wanted.filter fun w => covers && !links.contains ⟨w, true⟩

theorem mem_uncovered : w ∈ uncovered wanted covers links ↔ w ∈ wanted ∧ covers = true ∧ ⟨w, true⟩ ∉ links := by
  simp [uncovered]

/-- What asking for links to the targets `wanted` makes of the links `old` of a test. -/
structure Granted (wanted : List Target) (covers : Bool) (old new : List Link) : Prop where
  /-- Every target is declared, with coverage if that is asked for. -/
  declared : ∀ w ∈ wanted, ∃ k ∈ new, k.target = w ∧ (covers = true → k.covers = true)
  /-- A target that was absent is declared once, with the coverage asked for. -/
  once : ∀ w ∈ wanted, absent old w = true → new.filter (·.target = w) = [⟨w, covers⟩]
  /-- All links that were there stand where they stood, and the first one to a target has coverage if it
  is asked for and none of them had it. The others are as they were. -/
  kept : ∀ (i : Nat) (k : Link), old[i]? = some k → new[i]? = some
    (if (k.target ∈ wanted ∧ covers = true ∧ ⟨k.target, true⟩ ∉ old) ∧ FirstAt old i k.target
      then ⟨k.target, true⟩ else k)
  /-- After them come the targets that were absent, in the order they were asked for. -/
  added : new.drop old.length = (wanted.eraseDups.filter (absent old)).map fun w => ⟨w, covers⟩
  /-- No link with coverage is lost. -/
  coverage : ∀ (i : Nat) (k : Link), old[i]? = some k → k.covers = true → new[i]? = some k

theorem granted_of_covering (h : new = covering (uncovered wanted.eraseDups covers old) old ++
    (wanted.eraseDups.filter (absent old)).map fun w => ⟨w, covers⟩) : Granted wanted covers old new := by
  have hmem : ∀ w, w ∈ uncovered wanted.eraseDups covers old ↔
      w ∈ wanted ∧ covers = true ∧ ⟨w, true⟩ ∉ old := fun w => by rw [mem_uncovered, List.mem_eraseDups]
  have hkept : ∀ (i : Nat) (k : Link), old[i]? = some k → new[i]? = some
      (if (k.target ∈ wanted ∧ covers = true ∧ ⟨k.target, true⟩ ∉ old) ∧ FirstAt old i k.target
        then ⟨k.target, true⟩ else k) := fun i k hk => by
    have hlt := (List.getElem?_eq_some_iff.mp hk).1
    rw [h, List.getElem?_append_left (by rwa [length_covering]), getElem?_covering hk]
    exact congrArg some (if_congr (and_congr_left fun _ => hmem _) rfl rfl)
  have hadded : ∀ w ∈ wanted, absent old w = true → ⟨w, covers⟩ ∈ new := fun w hw habsent => by
    rw [h]
    exact List.mem_append_right _ (List.mem_map_of_mem
      (List.mem_filter.mpr ⟨List.mem_eraseDups.mpr hw, habsent⟩))
  have hcoverage : ∀ (i : Nat) (k : Link), old[i]? = some k → k.covers = true → new[i]? = some k := by
    intro i k hk hcovers
    rw [hkept i k hk]
    split
    · rw [← hcovers]
    · rfl
  refine ⟨fun w hw => ?_, fun w hw habsent => ?_, hkept, ?_, hcoverage⟩
  · by_cases habsent : absent old w = true
    · exact ⟨_, hadded w hw habsent, rfl, id⟩
    · obtain ⟨k, hk, rfl⟩ : ∃ k ∈ old, k.target = w := by
        simpa [absent] using habsent
      by_cases hup : k.target ∈ uncovered wanted.eraseDups covers old
      · refine ⟨⟨k.target, true⟩, ?_, rfl, fun _ => rfl⟩
        rw [h]
        exact List.mem_append_left _ (mem_covering hup ⟨k, hk, rfl⟩)
      · by_cases hcovers : covers = true
        · have hold : ⟨k.target, true⟩ ∈ old := by
            by_contra hnot
            exact hup ((hmem _).mpr ⟨hw, hcovers, hnot⟩)
          obtain ⟨i, hi⟩ := List.mem_iff_getElem?.mp hold
          exact ⟨_, List.mem_of_getElem? (hcoverage i _ hi rfl), rfl, fun _ => rfl⟩
        · obtain ⟨i, hi⟩ := List.mem_iff_getElem?.mp hk
          have hat := hkept i k hi
          rw [if_neg fun hc => hcovers hc.1.2.1] at hat
          exact ⟨k, List.mem_of_getElem? hat, rfl, fun hc => absurd hc hcovers⟩
  · -- no link that was there names the target, and the targets that are added are told apart
    have hnone : (covering (uncovered wanted.eraseDups covers old) old).filter (·.target = w) = [] := by
      refine List.filter_eq_nil_iff.mpr fun k hk he => ?_
      have hmem := List.mem_map_of_mem (f := Link.target) hk
      rw [map_target_covering] at hmem
      obtain ⟨d, hd, hdk⟩ := List.mem_map.mp hmem
      exact absent_iff.mp habsent d hd (hdk.trans (of_decide_eq_true he))
    have hone : (wanted.eraseDups.filter (absent old)).filter (fun u => decide (u = w)) = [w] := by
      rw [List.filter_eq, List.count_eq_one_of_mem ((nodup_eraseDups _ wanted (Nat.le_refl _)).filter _)
        (List.mem_filter.mpr ⟨List.mem_eraseDups.mpr hw, habsent⟩)]
      rfl
    rw [h, List.filter_append, hnone, List.nil_append, List.filter_map]
    exact congrArg (List.map fun w => (⟨w, covers⟩ : Link)) hone
  · rw [h, List.drop_left' length_covering]

/-! ## §2 Which attributes are given coverage -/

/-- The first of some attributes that names a target. -/
def firstNaming (imports : Imports) (as : List Attribute) (w : Target) : Option Attribute :=
  as.find? fun a => a.target imports = some w

/-- An attribute is the first one to name one of these targets. -/
def isFirst (imports : Imports) (wanted : List Target) (as : List Attribute) (a : Attribute) : Bool :=
  wanted.any fun w => firstNaming imports as w = some a

theorem isFirst_iff : isFirst imports wanted as a = true ↔ ∃ w ∈ wanted, firstNaming imports as w = some a := by
  simp [isFirst]

theorem target_of_firstNaming (h : firstNaming imports as w = some a) : a ∈ as ∧ a.target imports = some w :=
  ⟨List.mem_of_find?_eq_some h, by simpa using List.find?_some h⟩

theorem firstNaming_cons {v : Target} (h : a.target imports = some v) (as : List Attribute) (w : Target) :
    firstNaming imports (a :: as) w = if v = w then some a else firstNaming imports as w := by
  simp only [firstNaming, List.find?_cons, h, Option.some.injEq]
  by_cases hvw : v = w <;> simp [hvw]

/-- Where the first attributes that name some targets are given coverage, so are the first links to them. -/
theorem links_isFirst (hnodup : as.Nodup) :
    as.filterMap (fun a => (linkOf imports a).map fun k =>
        if isFirst imports wanted as a then ⟨k.target, true⟩ else k) =
      covering wanted (as.filterMap (linkOf imports)) := by
  induction as generalizing wanted with
  | nil => rfl
  | cons a as ih =>
    obtain ⟨ha, hnodup⟩ := List.nodup_cons.mp hnodup
    cases htarget : a.target imports with
    | none =>
      have hnone : linkOf imports a = none := by rw [linkOf, htarget]; rfl
      have hsame : ∀ b, isFirst imports wanted (a :: as) b = isFirst imports wanted as b := fun b => by
        simp only [isFirst, firstNaming, List.find?_cons, htarget]
        rfl
      rw [List.filterMap_cons_none (by rw [hnone]; rfl), List.filterMap_cons_none hnone, ← ih hnodup]
      simp only [hsame]
    | some v =>
      have hlink : linkOf imports a = some ⟨v, a.isNamed linksAndCoversName⟩ := by rw [linkOf, htarget]; rfl
      have hfirst : isFirst imports wanted (a :: as) a = true ↔ v ∈ wanted := by
        rw [isFirst_iff]
        constructor
        · rintro ⟨w, hw, h⟩
          rw [firstNaming_cons htarget] at h
          split at h
          · rename_i hvw
            exact hvw ▸ hw
          · exact absurd (target_of_firstNaming h).1 ha
        · intro hv
          exact ⟨v, hv, by rw [firstNaming_cons htarget, if_pos rfl]⟩
      have hrest : ∀ b ∈ as, isFirst imports wanted (a :: as) b =
          isFirst imports (wanted.filter (· ≠ v)) as b := fun b hb => by
        have hab : a ≠ b := fun he => ha (he ▸ hb)
        rw [isFirst, isFirst, List.any_filter]
        refine congrArg wanted.any (funext fun w => ?_)
        rw [firstNaming_cons htarget]
        by_cases hvw : v = w
        · simp [hvw, hab]
        · simp [hvw, Ne.symm hvw]
      have hlinks : as.filterMap (fun b => (linkOf imports b).map fun k =>
            if isFirst imports wanted (a :: as) b then ⟨k.target, true⟩ else k) =
          covering (wanted.filter (· ≠ v)) (as.filterMap (linkOf imports)) := by
        rw [← ih hnodup]
        exact List.filterMap_congr fun b hb => by rw [hrest b hb]
      rw [List.filterMap_cons_some (by rw [hlink]; rfl), hlinks, List.filterMap_cons_some hlink, covering]
      dsimp only
      by_cases hv : v ∈ wanted
      · rw [if_pos (hfirst.mpr hv), if_pos hv]
      · have hself : wanted.filter (· ≠ v) = wanted :=
          List.filter_eq_self.mpr fun w hw => decide_eq_true fun he => hv (he ▸ hw)
        rw [if_neg (mt hfirst.mp hv), if_neg hv, hself]

/-- The links that a method declares. -/
def linksOf (imports : Imports) (m : Method) : List Link := (linkAttributes m).filterMap (linkOf imports)

theorem mem_linksOf {c : Bool} : ⟨w, c⟩ ∈ linksOf imports m ↔
    ∃ a ∈ linkAttributes m, a.target imports = some w ∧ a.isNamed linksAndCoversName = c := by
  simp [linksOf, linkOf, List.mem_filterMap]

/-- What adding one link comes to: a group that is written if the link is absent, or else the attribute
that is given coverage if no link to the target has it. -/
theorem injectOne_eq (source : Text) (imports : Imports) (m : Method) (covers : Bool) (w : Target) :
    injectOne source imports m covers w =
      (if absent (linksOf imports m) w = true then
        [Edit.addLine source (anchors m) m.headStart (writeGroup imports w covers)] else []) ++
      if (covers && !(linksOf imports m).contains ⟨w, true⟩) = true then
        (firstNaming imports (linkAttributes m) w).toList.map upgrade else [] := by
  have hhead : firstNaming imports (linkAttributes m) w =
      ((linkAttributes m).filter fun a => a.target imports = some w).head? := (List.head?_filter ..).symm
  rw [injectOne]
  split
  · rename_i hnil
    have habsent : absent (linksOf imports m) w = true := absent_iff.mpr fun k hk he => by
      obtain ⟨t, c⟩ := k
      obtain rfl : t = w := he
      obtain ⟨a, ha, htarget, -⟩ := mem_linksOf.mp hk
      exact List.filter_eq_nil_iff.mp hnil a ha (decide_eq_true htarget)
    rw [if_pos habsent, hhead, hnil]
    simp
  · rename_i first rest hcons
    have hfirst : first ∈ linkAttributes m ∧ first.target imports = some w := by
      have hmem : first ∈ (linkAttributes m).filter fun a => a.target imports = some w := by
        rw [hcons]
        exact List.mem_cons_self
      simpa using hmem
    have hpresent : absent (linksOf imports m) w ≠ true := fun habsent =>
      absent_iff.mp habsent ⟨w, _⟩ (mem_linksOf.mpr ⟨first, hfirst.1, hfirst.2, rfl⟩) rfl
    have hcovered : ((first :: rest).any (·.isNamed linksAndCoversName)) =
        (linksOf imports m).contains ⟨w, true⟩ := by
      rw [← hcons, Bool.eq_iff_iff, List.any_filter, List.any_eq_true, List.contains_iff_mem, mem_linksOf]
      simp
    rw [if_neg hpresent, List.nil_append, hcovered, hhead, hcons]
    rfl

/-! ## §3 The edits one after the other -/

variable {l : TokenSequence}

/-- The targets that are given coverage. -/
def raisedTargets (imports : Imports) (m : Method) (covers : Bool) (targets : List Target) : List Target :=
  uncovered targets.eraseDups covers (linksOf imports m)

/-- The attributes that are given coverage, as they stand. -/
def raisedAttributes (imports : Imports) (m : Method) (covers : Bool) (targets : List Target) :
    List Attribute :=
  (linkAttributes m).filter (isFirst imports (raisedTargets imports m covers targets) (linkAttributes m))

/-- The targets that are written, as they were asked for. -/
def writtenTargets (imports : Imports) (m : Method) (targets : List Target) : List Target :=
  targets.eraseDups.filter (absent (linksOf imports m))

/-- The edit that writes one of them. -/
def writing (source : Text) (imports : Imports) (m : Method) (covers : Bool) (w : Target) : Splice :=
  Edit.addLine source (anchors m) m.headStart (writeGroup imports w covers)

theorem nodup_linkAttributes (hl : tokenize source = .ok l) (hm : MethodAt l source m) :
    (linkAttributes m).Nodup := by
  refine (linkAttributes_order hl hm).imp_of_mem fun {a b} ha _ hab => ?_
  obtain ⟨g, -, hg, hag⟩ := mem_linkAttributes ha
  obtain ⟨o, c, hat⟩ := hm.groups g hg
  have := (attributePlaced hl hat hag).lt
  rintro rfl
  omega

theorem flatMap_ite {α β : Type} (p : α → Bool) (f : α → List β) (xs : List α) :
    (xs.flatMap fun x => if p x = true then f x else []) = (xs.filter p).flatMap f := by
  induction xs with
  | nil => rfl
  | cons x xs ih =>
    rw [List.flatMap_cons, List.filter_cons, ih]
    split
    · rw [List.flatMap_cons]
    · rw [List.nil_append]

/-- Of the attributes each target that is given coverage has one. -/
theorem perm_raised (hnodup : (linkAttributes m).Nodup) (targets : List Target) :
    ((raisedTargets imports m covers targets).flatMap fun w =>
      (firstNaming imports (linkAttributes m) w).toList).Perm (raisedAttributes imports m covers targets) := by
  refine (List.perm_ext_iff_of_nodup (List.nodup_flatMap.mpr ⟨fun w _ => ?_, ?_⟩) (hnodup.filter _)).mpr
    fun a => ?_
  · cases firstNaming imports (linkAttributes m) w <;> simp
  · refine ((nodup_eraseDups _ targets (Nat.le_refl _)).filter _).imp fun {v w} hvw a hv hw => hvw ?_
    have hv := (target_of_firstNaming (Option.mem_toList.mp hv)).2
    have hw := (target_of_firstNaming (Option.mem_toList.mp hw)).2
    exact Option.some.inj (hv.symm.trans hw)
  · simp only [List.mem_flatMap, List.mem_filter, isFirst_iff, Option.mem_toList]
    exact ⟨fun ⟨w, hw, h⟩ => ⟨(target_of_firstNaming h).1, w, hw, h⟩, fun h => h.2⟩

/-- The changes that inject links are those that give coverage to attributes and those that write groups. -/
theorem perm_injectSplices (hnodup : (linkAttributes m).Nodup) (targets : List Target) :
    (targets.eraseDups.flatMap (injectOne source imports m covers)).Perm
      ((raisedAttributes imports m covers targets).map upgrade ++
        (writtenTargets imports m targets).map (writing source imports m covers)) := by
  rw [funext (injectOne_eq source imports m covers)]
  refine (List.flatMap_append_perm _ _ _).symm.trans (List.perm_append_comm.trans ?_)
  rw [flatMap_ite, flatMap_ite, ← List.map_flatMap, ← List.map_eq_flatMap]
  exact ((perm_raised hnodup targets).map upgrade).append (.refl _)

theorem upgrade_lt (hlink : a.isLink = true) (h : a.nameSpan.start < a.nameSpan.stop) :
    (upgrade a).span.start < (upgrade a).span.stop := by
  have hne : a.shortName ≠ [] := fun hnil => by
    rw [Attribute.isLink, Attribute.isNamed, Attribute.isNamed, hnil] at hlink
    revert hlink
    decide
  obtain ⟨c, cs, hcons⟩ := List.exists_cons_of_ne_nil hne
  have := c.utf8Size_pos
  simp only [upgrade, Splice.span, hcons, Text.width_cons]
  omega

theorem exists_placed (hl : tokenize source = .ok l) (hm : MethodAt l source m) (ha : a ∈ linkAttributes m) :
    ∃ g, AttributePlaced source g a := by
  obtain ⟨g, -, hg, hag⟩ := mem_linkAttributes ha
  obtain ⟨o, c, hat⟩ := hm.groups g hg
  exact ⟨g, attributePlaced hl hat hag⟩

/-- The attributes that are given coverage stand in order before the place where groups are written. -/
theorem rowed_injectSplices (hl : tokenize source = .ok l) (hm : MethodAt l source m) (targets : List Target) :
    Rowed source 0 (Text.width source) ((raisedAttributes imports m covers targets).map upgrade ++
      (writtenTargets imports m targets).map (writing source imports m covers)) := by
  obtain ⟨n, hn, hafter, hline⟩ := exists_addPoint hl hm
  have hmem : ∀ a ∈ raisedAttributes imports m covers targets, a ∈ linkAttributes m := fun a ha =>
    (List.mem_filter.mp ha).1
  have hraised : Rowed source 0 n ((raisedAttributes imports m covers targets).map upgrade) := by
    refine ⟨fun s hs => ?_, fun s hs => ?_, List.pairwise_map.mpr
      (((linkAttributes_order hl hm).filter _).imp_of_mem fun {a b} ha hb hab => ?_)⟩
    · obtain ⟨a, ha, rfl⟩ := List.mem_map.mp hs
      obtain ⟨g, hplaced⟩ := exists_placed hl hm (hmem a ha)
      exact hplaced.upgrade_fits
    · obtain ⟨a, ha, rfl⟩ := List.mem_map.mp hs
      obtain ⟨g, hplaced⟩ := exists_placed hl hm (hmem a ha)
      have := hplaced.upgrade_stop
      have := hafter a (hmem a ha)
      omega
    · obtain ⟨g, hplaced⟩ := exists_placed hl hm (hmem a ha)
      obtain ⟨g', hplaced'⟩ := exists_placed hl hm (hmem b hb)
      have := hplaced.upgrade_stop
      have := hplaced'.upgrade_start
      omega
  have hpoint : ∀ s ∈ (writtenTargets imports m targets).map (writing source imports m covers),
      s.span = Span.point n := fun s hs => by
    obtain ⟨w, -, rfl⟩ := List.mem_map.mp hs
    exact hline _
  have hwidth := Span.le_width_of_isBoundary hn
  have hwritten : Rowed source n (Text.width source)
      ((writtenTargets imports m targets).map (writing source imports m covers)) := by
    refine ⟨fun s hs => hpoint s hs ▸ .point hn, fun s hs => ?_,
      List.pairwise_of_forall_mem_list fun s hs t ht => ?_⟩
    · rw [hpoint s hs]
      exact ⟨Nat.le_refl n, hwidth⟩
    · rw [hpoint s hs, hpoint t ht]
      exact Nat.le_refl n
  exact hraised.append hwritten (Nat.zero_le n) (Nat.le_refl n) hwidth

/-- At each offset groups are written in the order in which they were asked for. -/
theorem points_injectSplices (hl : tokenize source = .ok l) (hm : MethodAt l source m) (targets : List Target)
    (n : Nat) : (targets.eraseDups.flatMap (injectOne source imports m covers)).filter
        (fun s => s.span = Span.point n) =
      ((raisedAttributes imports m covers targets).map upgrade ++
        (writtenTargets imports m targets).map (writing source imports m covers)).filter
          fun s => s.span = Span.point n := by
  -- no attribute that is given coverage takes the place of nothing
  have hnone : ∀ as : List Attribute, (∀ a ∈ as, a ∈ linkAttributes m) →
      (as.map upgrade).filter (fun s => decide (s.span = Span.point n)) = [] := fun as has => by
    refine List.filter_eq_nil_iff.mpr fun s hs he => ?_
    obtain ⟨a, ha, rfl⟩ := List.mem_map.mp hs
    obtain ⟨g, hplaced⟩ := exists_placed hl hm (has a ha)
    have hlink : a.isLink = true := by
      obtain ⟨g, -, hag⟩ := List.mem_flatMap.mp (has a ha)
      exact (List.mem_filter.mp hag).2
    have hlt := upgrade_lt hlink hplaced.name_lt
    rw [of_decide_eq_true he] at hlt
    exact Nat.lt_irrefl n hlt
  have hone : ∀ w, (injectOne source imports m covers w).filter (fun s => decide (s.span = Span.point n)) =
      (if absent (linksOf imports m) w = true then [writing source imports m covers w] else []).filter
        fun s => decide (s.span = Span.point n) := fun w => by
    rw [injectOne_eq, List.filter_append]
    refine (congrArg _ ?_).trans (List.append_nil _)
    split
    · exact hnone _ fun a ha => (target_of_firstNaming (Option.mem_toList.mp ha)).1
    · rfl
  rw [List.filter_flatMap, List.flatMap_congr fun w _ => hone w, ← List.filter_flatMap, flatMap_ite,
    ← List.map_eq_flatMap, List.filter_append,
    hnone (raisedAttributes imports m covers targets) fun a ha => (List.mem_filter.mp ha).1, List.nil_append]
  rfl

/-- To inject links is to write groups, and then to give coverage to attributes, the last one first. -/
theorem inject_eq_fold {r : TestCase} {names : List Text} {file : File} {t : Test} (hl : tokenize source = .ok l)
    (hm : MethodAt l source t.method) (hlocate : locate source r = .ok (file, t))
    (hnames : parseTargets names = .ok targets) :
    inject source r names covers = ((apply source ((writtenTargets file.imports t.method targets).map
        (writing source file.imports t.method covers)) >>= fun text =>
      ((raisedAttributes file.imports t.method covers targets).map upgrade).reverse.foldlM
        (fun text s => apply text [s]) text).mapError .conflict) := by
  have hrowed := @rowed_injectSplices source file.imports t.method covers l hl hm targets
  simp only [inject, hlocate, hnames, bind, Except.bind]
  rw [applyEdit, hrowed.apart.apply_perm (perm_injectSplices (nodup_linkAttributes hl hm) targets)
    (points_injectSplices hl hm targets), hrowed.apply_append]
  rfl

/-! ## §4 The groups that are written -/

/-- What is required of a target for its group to be written to a source: its attribute is read back, and
it brings neither a code tag into a source without one nor a class called `use` or `namespace`. -/
structure Writable (source : Text) (imports : Imports) (covers : Bool) (w : Target) : Prop where
  back : ReadsBack imports covers w
  tag : "<?".toList <:+: writeGroup imports w covers → "<?".toList <:+: source
  statement : NamesNoStatement imports w

instance : Decidable (Writable source imports covers w) :=
  decidable_of_iff (ReadsBack imports covers w ∧
      ("<?".toList <:+: writeGroup imports w covers → "<?".toList <:+: source) ∧ NamesNoStatement imports w)
    ⟨fun h => ⟨h.1, h.2.1, h.2.2⟩, fun h => ⟨h.back, h.tag, h.statement⟩⟩

/-- What is required of a target for its group to be written to a source and nothing else to be read in another
way: its arguments can be read, and they bring neither a code tag into a source without one nor a class called
`use` or `namespace`. -/
structure Admissible (source : Text) (imports : Imports) (covers : Bool) (w : Target) : Prop where
  spelled : Spelled imports w
  tag : "<?".toList <:+: writeGroup imports w covers → "<?".toList <:+: source
  statement : NamesNoStatement imports w

instance : Decidable (Admissible source imports covers w) :=
  decidable_of_iff (Spelled imports w ∧
      ("<?".toList <:+: writeGroup imports w covers → "<?".toList <:+: source) ∧ NamesNoStatement imports w)
    ⟨fun h => ⟨h.1, h.2.1, h.2.2⟩, fun h => ⟨h.spelled, h.tag, h.statement⟩⟩

theorem Writable.admissible (h : Writable source imports covers w) : Admissible source imports covers w :=
  ⟨spelled_of_readsBack h.back, h.tag, h.statement⟩

/-- No declaration of a namespace and no statement that imports classes reaches into the stretch from the
start of a test to the place where groups are written to it, or across that place. -/
structure ClearAbove (source : Text) (t : Test) : Prop where
  stretch : ClearBetween source t.case.span.start (linkOffset source t.method)
  place : ClearOfImports source t

/-- Groups that are written for links declare these links. -/
theorem links_of_declares {ws : List Target} {gs : List AttributeGroup}
    (h : List.Forall₂ (Declares imports covers) ws gs) :
    ((gs.flatMap AttributeGroup.attributes).filter Attribute.isLink).filterMap (linkOf imports) =
      ws.map fun w => ⟨w, covers⟩ := by
  induction h with
  | nil => rfl
  | @cons w g ws gs hfirst _ ih =>
    have hlink : ∀ a ∈ g.attributes, a.isLink = true := fun a ha => isLink_of_declares hfirst ha
    obtain ⟨a, hattributes, hname, htarget⟩ := hfirst
    have hcovers : a.isNamed linksAndCoversName = covers := by
      rw [Attribute.isNamed, Attribute.shortName, hname]
      cases covers <;> decide +kernel
    rw [hattributes] at hlink
    rw [List.flatMap_cons, hattributes, List.singleton_append, List.filter_cons, if_pos (hlink a (by simp)),
      List.filterMap_cons_some (b := ⟨w, covers⟩) (by rw [linkOf, htarget, hcovers]; rfl), ih, List.map_cons]

/-- A test of which groups are written for the links it does not declare. The attributes `as` stand before
these groups, and what stands after them declares no links. The groups declare their links if these are read
back. -/
structure Grown (source out : Text) (file file' : File) (i : Nat) (t t' : Test) (covers : Bool)
    (ws : List Target) (as : List Attribute) : Prop extends Edited file i t out file' t' where
  before : ∃ bs, attributesOf t.method = as ++ bs ∧ ∀ a ∈ bs, a.isLink = false
  after : ∃ bs, attributesOf t'.method = as ++ bs ∧ ((∀ w ∈ ws, ReadsBack file.imports covers w) →
    (bs.filter Attribute.isLink).filterMap (linkOf file.imports) = ws.map fun w => ⟨w, covers⟩)
  clear : ClearBetween out t.case.span.start (linkOffset source t.method)

/-- Groups can be written for links that a test does not declare. -/
theorem exists_grown {file : File} {t : Test} {ws : List Target} (hread : File.read source = .ok file)
    (ht : file.tests[i]? = some t) (hclear : ClearAbove source t)
    (hw : ∀ w ∈ ws, Admissible source file.imports covers w) :
    ∃ out file' t' as, apply source (ws.map (writing source file.imports t.method covers)) = .ok out ∧
      Grown source out file file' i t t' covers ws as := by
  by_cases hne : ws = []
  · subst hne
    refine ⟨source, file, t, attributesOf t.method, ?_, ⟨.refl hread ht,
      ⟨[], (List.append_nil _).symm, by simp⟩, ⟨[], (List.append_nil _).symm, fun _ => rfl⟩, hclear.stretch⟩⟩
    rw [List.map_nil, (Rowed.nil source 0 0).apply_eq]
    exact congrArg Except.ok (Text.after_zero source)
  · obtain ⟨l, hl, rfl⟩ := exists_read hread
    obtain ⟨C₁, c, C₂, ms, m, ms', hclasses, hmethods, htest, rfl, hi⟩ := exists_method ht
    obtain ⟨out, l', m', A, gs, B, happly, hcarved⟩ := exists_carved hl hclasses hmethods htest hne
      (fun w hmem => (hw w hmem).spelled) fun w hmem => (hw w hmem).tag
    have ht' := hcarved.test
    rw [← hi] at ht'
    obtain ⟨himports, hstretch⟩ := hcarved.imports (hclear.place l hl) fun w hmem => (hw w hmem).statement
    obtain ⟨d, n, hattributes⟩ := hcarved.extended.attributes
    have hrest : ∀ a ∈ B.flatMap AttributeGroup.attributes, a.isLink = false := fun a ha => by
      obtain ⟨g, hg, ha⟩ := List.mem_flatMap.mp ha
      exact Bool.eq_false_iff.mpr (List.any_eq_false.mp (hcarved.rest g hg) a ha)
    refine ⟨out, _, _, A.flatMap AttributeGroup.attributes, ?_, ⟨⟨read_eq hcarved.read, himports,
      ?_, ht', hcarved.extended.name, ?_, hcarved.extended.start⟩,
      ⟨B.flatMap AttributeGroup.attributes, ?_, hrest⟩,
      ⟨gs.flatMap AttributeGroup.attributes ++ (B.flatMap AttributeGroup.attributes).map (Attribute.shift n),
        ?_, ?_⟩, hstretch _ _ (Nat.le_refl _) hclear.stretch⟩⟩
    · exact apply_of_applyEdit happly
    · rw [hi]
      dsimp only
      rw [himports]
      exact hcarved.confined
    · show c.name ++ memberSeparator ++ m'.name = c.name ++ memberSeparator ++ m.name
      rw [hcarved.extended.name]
    · show attributesOf m = _
      rw [attributesOf, hcarved.extended.old, List.flatMap_append]
    · show attributesOf m' = _
      rw [attributesOf, hattributes]
      simp [AttributeGroup.shift, List.flatMap_map, List.map_flatMap]
    · have hnone : ((B.flatMap AttributeGroup.attributes).map (Attribute.shift n)).filter Attribute.isLink = [] := by
        refine List.filter_eq_nil_iff.mpr fun a ha => ?_
        obtain ⟨b, hb, rfl⟩ := List.mem_map.mp ha
        exact Bool.eq_false_iff.mp (hrest b hb)
      intro hback
      rw [List.filter_append, hnone, List.append_nil]
      exact links_of_declares (declares_of_bears_all hcarved.bears hback)

/-! ## §5 Links that are asked for -/

theorem links_eq {file : File} {t : Test} (hread : File.read source = .ok file) (ht : file.tests[i]? = some t) :
    t.case.links = linksOf file.imports t.method := by
  obtain ⟨l, hl, rfl⟩ := exists_read hread
  obtain ⟨C₁, c, C₂, ms, m, ms', -, -, -, rfl, -⟩ := exists_method ht
  rfl

/-- The links that some attributes declare when some of them have been given coverage. -/
theorem links_of_raised {p : Attribute → Bool} (h : List.Forall₂ (Raised p) as bs)
    (hp : ∀ a ∈ as, p a = true → a.isLink = true) (imports : Imports) :
    (bs.filter Attribute.isLink).filterMap (linkOf imports) =
      (as.filter Attribute.isLink).filterMap fun a => (linkOf imports a).map fun k =>
        if p a then ⟨k.target, true⟩ else k := by
  induction h with
  | nil => rfl
  | @cons a b as bs hab _ ih =>
    have hrest := ih fun a ha => hp a (List.mem_cons_of_mem _ ha)
    rw [Raised] at hab
    by_cases ha : p a = true
    · rw [if_pos ha] at hab
      have hlink : b.isLink = true := by rw [Attribute.isLink, hab.name, Bool.or_true]
      have hsame : linkOf imports b = (linkOf imports a).map fun k => ⟨k.target, true⟩ := by
        rw [linkOf, linkOf, target_of_arguments hab.arguments, hab.name, Option.map_map]
        rfl
      rw [List.filter_cons, if_pos hlink, List.filter_cons, if_pos (hp a List.mem_cons_self ha),
        List.filterMap_cons, List.filterMap_cons, hrest, hsame]
      simp only [ha, if_true]
    · rw [if_neg ha] at hab
      have hlink : b.isLink = a.isLink := by
        rw [Attribute.isLink, Attribute.isLink, hab.isNamed, hab.isNamed]
      have hsame : linkOf imports b = linkOf imports a := by
        rw [linkOf, linkOf, target_of_arguments hab.arguments, hab.isNamed]
      rw [List.filter_cons, List.filter_cons, hlink]
      split
      · rw [List.filterMap_cons, List.filterMap_cons, hrest, hsame]
        simp only [ha, Bool.false_eq_true, if_false, Option.map_id']
      · exact hrest

theorem links_of_same (h : List.Forall₂ SameReading as bs) (imports : Imports) :
    (bs.filter Attribute.isLink).filterMap (linkOf imports) =
      (as.filter Attribute.isLink).filterMap (linkOf imports) := by
  have hraised : List.Forall₂ (Raised fun _ => false) as bs := h.imp fun a b hab => by
    rw [Raised, if_neg Bool.false_ne_true]
    exact hab
  simpa using links_of_raised hraised (by simp) imports

/-- A link is declared before the place where groups are written. -/
theorem stop_le_linkOffset (hl : tokenize source = .ok l) (hm : MethodAt l source m)
    (ha : a ∈ linkAttributes m) : a.span.stop ≤ linkOffset source m := by
  obtain ⟨n, -, hafter, hline⟩ := exists_addPoint hl hm
  rw [linkOffset, hline]
  exact hafter a ha

/-- Links that a test declares, with coverage if that is asked for, are left alone. -/
theorem inject_of_declared {file : File} {t : Test} {r : TestCase} {names : List Text}
    (hlocate : locate source r = .ok (file, t)) (hnames : parseTargets names = .ok targets)
    (h : ∀ w ∈ targets, ∃ k ∈ linksOf file.imports t.method, k.target = w ∧ (covers = true → k.covers = true)) :
    inject source r names covers = .ok source := by
  have hnil : targets.eraseDups.flatMap (injectOne source file.imports t.method covers) = [] := by
    refine List.flatMap_eq_nil_iff.mpr fun w hw => ?_
    obtain ⟨k, hk, rfl, hcovers⟩ := h w (List.mem_eraseDups.mp hw)
    have hpresent : absent (linksOf file.imports t.method) k.target ≠ true := fun habsent =>
      absent_iff.mp habsent k hk rfl
    have hcovered : (covers && !(linksOf file.imports t.method).contains ⟨k.target, true⟩) = false := by
      cases covers with
      | false => rfl
      | true =>
        have hmem : ⟨k.target, true⟩ ∈ linksOf file.imports t.method := by
          rw [← hcovers rfl]
          exact hk
        rw [List.contains_iff_mem.mpr hmem]
        rfl
    rw [injectOne_eq, if_neg hpresent, hcovered]
    rfl
  simp only [inject, hlocate, hnames, bind, Except.bind, hnil, applyEdit_nil]

/-- A test that is clear of imports can be given links, if those that it does not declare can be written to the
source. The file has as many tests, and but for that test they declare what they declared; the test at the same
place has the links that it had, some of them with coverage, and those that are read back of the new groups. -/
theorem exists_injected {file : File} {t : Test} {r : TestCase} {names : List Text}
    (hread : File.read source = .ok file) (ht : file.tests[i]? = some t)
    (hlocate : locate source r = .ok (file, t)) (hnames : parseTargets names = .ok targets)
    (hclear : ClearAbove source t)
    (hw : ∀ w ∈ targets, absent t.case.links w = true → Admissible source file.imports covers w) :
    ∃ out file' t', inject source r names covers = .ok out ∧ Edited file i t out file' t' ∧
      ((∀ w ∈ targets, absent t.case.links w = true → ReadsBack file.imports covers w) →
        t'.case.links = covering (uncovered targets.eraseDups covers t.case.links) t.case.links ++
          (targets.eraseDups.filter (absent t.case.links)).map fun w => ⟨w, covers⟩) := by
  obtain ⟨l, hl, hm⟩ := of_locate hlocate
  have hold := links_eq hread ht
  generalize hws : writtenTargets file.imports t.method targets = ws
  have hasked : ∀ w ∈ ws, w ∈ targets ∧ absent t.case.links w = true := fun w hmem => by
    rw [← hws] at hmem
    obtain ⟨hmem, habsent⟩ := List.mem_filter.mp hmem
    exact ⟨List.mem_eraseDups.mp hmem, hold ▸ habsent⟩
  obtain ⟨out₁, file₁, t₁, as, happly, hgrown⟩ := exists_grown hread ht hclear fun w (hmem : w ∈ ws) =>
    hw w (hasked w hmem).1 (hasked w hmem).2
  obtain ⟨bs, hsplit, hrest⟩ := hgrown.before
  obtain ⟨bs₁, hsplit₁, hbs₁⟩ := hgrown.after
  have hattributes : linkAttributes t.method = as.filter Attribute.isLink := by
    have hnone : bs.filter Attribute.isLink = [] :=
      List.filter_eq_nil_iff.mpr fun a ha => Bool.eq_false_iff.mp (hrest a ha)
    rw [linkAttributes_eq, hsplit, List.filter_append, hnone, List.append_nil]
  generalize hp : isFirst file.imports (raisedTargets file.imports t.method covers targets)
    (linkAttributes t.method) = p
  -- an attribute that is given coverage declares a link without it
  have hchosen : ∀ a, p a = true → a ∈ linkAttributes t.method ∧ a.isNamed linksName = true := fun a ha => by
    rw [← hp] at ha
    obtain ⟨w, hw, hfirst⟩ := isFirst_iff.mp ha
    obtain ⟨hmem, htarget⟩ := target_of_firstNaming hfirst
    have hbare : a.isNamed linksAndCoversName = false := Bool.eq_false_iff.mpr fun hcovers =>
      (mem_uncovered.mp hw).2.2 (mem_linksOf.mpr ⟨a, hmem, htarget, hcovers⟩)
    have hlink := hattributes ▸ hmem
    replace hlink := (List.mem_filter.mp hlink).2
    rw [Attribute.isLink, hbare, Bool.or_false] at hlink
    exact ⟨hmem, hlink⟩
  have hraised : raisedAttributes file.imports t.method covers targets = as.filter p := by
    rw [raisedAttributes, hp, hattributes, List.filter_filter]
    refine List.filter_congr fun a _ => ?_
    by_cases ha : p a = true
    · have hlink := hattributes ▸ (hchosen a ha).1
      rw [(List.mem_filter.mp hlink).2, Bool.and_true]
    · rw [Bool.eq_false_iff.mpr ha, Bool.false_and]
  obtain ⟨out, file', t', as', bs', hfold, hedited, hsplit', has, hbs⟩ :=
    exists_upgraded_all (p := p) hgrown.read hgrown.test hsplit₁ (fun a _ ha => by
      obtain ⟨hmem, hname⟩ := hchosen a ha
      obtain ⟨g, hplaced⟩ := exists_placed hl hm hmem
      have := hplaced.name_lt
      have : a.nameSpan.stop ≤ a.span.stop := hplaced.upgrade_stop
      have := stop_le_linkOffset hl hm hmem
      exact ⟨hname, by omega⟩) (hgrown.start ▸ hgrown.clear)
  have hall := hgrown.toEdited.trans hedited
  refine ⟨out, file', t', ?_, hall, fun hback => ?_⟩
  · rw [inject_eq_fold hl hm hlocate hnames, hws, happly, hraised]
    exact congrArg (Except.mapError EditError.conflict) hfold
  · rw [links_eq hall.read hall.test, hall.imports, linksOf, linkAttributes_eq, hsplit', List.filter_append,
      List.filterMap_append, links_of_same hbs,
      hbs₁ fun w hmem => hback w (hasked w hmem).1 (hasked w hmem).2,
      links_of_raised has fun a _ ha => by rw [Attribute.isLink, (hchosen a ha).2, Bool.true_or],
      ← hattributes, ← hp, links_isFirst (nodup_linkAttributes hl hm), ← hws, writtenTargets, raisedTargets, hold]
    rfl

/-- **Links that are asked for.** A test that is clear of imports can be given links, if those that it does
not declare can be written to the source. The source that results holds as many tests, and the test at the
same place has the links asked for, and those it had, as `Granted` says. Asked for again, of the test as it
was recorded before or as it is now, they change nothing. -/
theorem inject_granted {file : File} {t : Test} {r : TestCase} {names : List Text}
    (hread : File.read source = .ok file) (ht : file.tests[i]? = some t)
    (hr : FluentChain.Recorded t.case r) (hnames : parseTargets names = .ok targets)
    (hclear : ClearAbove source t)
    (hw : ∀ w ∈ targets, absent t.case.links w = true → Writable source file.imports covers w) :
    ∃ out file' t', inject source r names covers = .ok out ∧ File.read out = .ok file' ∧
      file'.tests.length = file.tests.length ∧ file'.tests[i]? = some t' ∧
      Granted targets covers t.case.links t'.case.links ∧
      ∀ r', FluentChain.Recorded t.case r' ∨ FluentChain.Recorded t'.case r' →
        inject out r' names covers = .ok out := by
  obtain ⟨out, file', t', hinject, hall, hlinks⟩ := exists_injected hread ht (locate_eq hread ht hr) hnames hclear
    fun w hmem habsent => (hw w hmem habsent).admissible
  have hgranted : Granted targets covers t.case.links t'.case.links :=
    granted_of_covering (hlinks fun w hmem habsent => (hw w hmem habsent).back)
  refine ⟨out, file', t', hinject, hall.read, hall.length, hall.test, hgranted, fun r' hr' => ?_⟩
  have hr' : FluentChain.Recorded t'.case r' := by
    obtain hr' | hr' := hr'
    · exact ⟨hr'.name.trans hall.name.symm, by rw [hall.identifier]; exact hr'.identifier,
        hr'.start.trans hall.start.symm⟩
    · exact hr'
  refine inject_of_declared (locate_eq hall.read hall.test hr') hnames ?_
  rw [← links_eq hall.read hall.test]
  exact hgranted.declared

/-- A test with two links that are declared in one group, marked as a test in another. -/
def linkedSource : Text :=
  "<?php\nuse App\\X;\nclass T \x7b\n    #[Links(X::class), Links(C::class)]\n" ++
    "    #[Test] public function a() \x7b\x7d\n\x7d\n"

/-- One of the links is given coverage, and a method of its class is new. -/
theorem inject_granted_sample : ∃ file t out file' t', File.read linkedSource = .ok file ∧
    file.tests[0]? = some t ∧ t.case.links = [⟨⟨"App\\X", none⟩, false⟩, ⟨⟨"C", none⟩, false⟩] ∧
    inject linkedSource t.case ["App\\X::m", "App\\X"] true = .ok out ∧ File.read out = .ok file' ∧
    file'.tests[0]? = some t' ∧
    Granted [⟨"App\\X", some "m"⟩, ⟨"App\\X", none⟩] true t.case.links t'.case.links ∧
    inject out t.case ["App\\X::m", "App\\X"] true = .ok out := by
  have h : ((File.read linkedSource).toOption.any fun file => file.tests[0]?.any fun t =>
      (t.case.links = [⟨⟨"App\\X", none⟩, false⟩, ⟨⟨"C", none⟩, false⟩] &&
        ((tokenize linkedSource).toOption.all fun l => neverCrosses l
          (pointOf l (anchorsBy AttributeGroup.holdsLink t.method) t.method.headStart) 40 {} 0) &&
        ((tokenize linkedSource).toOption.all fun l => (List.range l.tokens.size).all fun q =>
          (l.tokens[q]?).all fun u => !(t.case.span.start ≤ u.span.start &&
            u.span.start < linkOffset linkedSource t.method) || neverCrosses l q 40 {} 0)) &&
        ([⟨"App\\X", some "m"⟩, ⟨"App\\X", none⟩] : List Target).all fun w =>
          Writable linkedSource file.imports true w) = true := by decide +kernel
  obtain ⟨file, hfile, h⟩ := (Option.any_eq_true _ _).mp h
  obtain ⟨t, ht, h⟩ := (Option.any_eq_true _ _).mp h
  obtain ⟨htest, hw⟩ := Bool.and_eq_true_iff.mp h
  obtain ⟨htest, hstretch⟩ := Bool.and_eq_true_iff.mp htest
  obtain ⟨hlinks, hplace⟩ := Bool.and_eq_true_iff.mp htest
  have hread := eq_ok_of_toOption hfile
  have hnames : parseTargets ["App\\X::m", "App\\X"] =
      .ok [⟨"App\\X", some "m"⟩, ⟨"App\\X", none⟩] := by decide +kernel
  obtain ⟨out, file', t', hout, hread', -, ht', hgranted, hagain⟩ := @inject_granted _ _ true _ _ _ _ _
    hread ht (.refl _) hnames ⟨clearBetween_of_neverCrosses hstretch, clearOfImports_of_neverCrosses hplace⟩
    fun w hmem _ => of_decide_eq_true (List.all_eq_true.mp hw w hmem)
  exact ⟨file, t, out, file', t', hread, ht, of_decide_eq_true hlinks, hout, hread', ht', hgranted,
    hagain _ (.inl (.refl _))⟩

/-- The links of the first test of a source. -/
def firstLinks (source : Text) : Option (List Link) := (firstTest source).map (·.case.links)

/-- Injecting links into the first test of a source makes it the text `out`, and each attribute that can be
written for one of them is read back. -/
def Yields (source : Text) (names : List Text) (covers : Bool) (out : Text) : Prop :=
  injectFirst source names covers = some out ∧
    ((File.read source).toOption.any fun file => (parseTargets names).toOption.any fun targets =>
      targets.all fun w => ReadsBack file.imports covers w) = true

instance (source : Text) (names : List Text) (covers : Bool) (out : Text) :
    Decidable (Yields source names covers out) := inferInstanceAs (Decidable (_ ∧ _))

/-- A test below a constant called `USE`, which is taken for an import that ends in the method before it. -/
def leadSource (group : Text) : Text :=
  "<?php\nnamespace N;\nuse App\\Use;\n#[Attr(Foo::USE)]\nclass A \x7b\n" ++
    "    public function f() \x7b return 1; \x7d\n    #[Links(Foo::class)]\n" ++ group ++
    "    public function test_f() \x7b return Foo; \x7d\n\x7d\n"

/-- What is required of the source and of the targets is needed. -/
theorem inject_ungranted :
    -- a tag in a group makes inline markup of what was code, and no test is left
    (Yields "class T \x7b public function test_a() \x7b\x7d \x7d\n" ["X::<?"] false
        "class T \x7b #[Links(X::class, '<?')] public function test_a() \x7b\x7d \x7d\n" ∧
      firstTest "class T \x7b #[Links(X::class, '<?')] public function test_a() \x7b\x7d \x7d\n" = none) ∧
    -- the constant `USE` is taken for an import that goes on to the next semicolon, and the name that is
    -- written becomes one of its classes
    (Yields (crossedSource []) ["App\\Links"] false (crossedSource "    #[Links(Links::class)]\n") ∧
      firstLinks (crossedSource "    #[Links(Links::class)]\n") = some [⟨⟨"Links", none⟩, false⟩]) ∧
    -- and so does the name of an attribute that is given coverage
    (firstLinks (crossedSource "    #[Links(LinksAndCovers\\Foo::class)]\n") =
        some [⟨⟨"App\\LinksAndCovers\\Foo", none⟩, false⟩] ∧
      Yields (crossedSource "    #[Links(LinksAndCovers\\Foo::class)]\n") ["App\\LinksAndCovers\\Foo"] true
        (crossedSource "    #[LinksAndCovers(LinksAndCovers\\Foo::class)]\n") ∧
      firstLinks (crossedSource "    #[LinksAndCovers(LinksAndCovers\\Foo::class)]\n") =
        some [⟨⟨"LinksAndCovers\\Foo", none⟩, true⟩]) ∧
    -- a class called `Use` is taken for an import where the brace of the class has been passed over, and a
    -- name before it loses the namespace
    (firstLinks (leadSource []) = some [⟨⟨"N\\Foo", none⟩, false⟩] ∧
      Yields (leadSource []) ["App\\Use::m"] false (leadSource "    #[Links(Use::class, 'm')]\n") ∧
      firstLinks (leadSource "    #[Links(Use::class, 'm')]\n") =
        some [⟨⟨"Foo", none⟩, false⟩, ⟨⟨"App\\Use", some "m"⟩, false⟩]) := by
  refine ⟨⟨?_, ?_⟩, ⟨?_, ?_⟩, ⟨?_, ?_, ?_⟩, ?_, ?_, ?_⟩
  all_goals decide +kernel

end Crosslink.AttributeList
