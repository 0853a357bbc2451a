import Crosslink.Proofs.Conflicts
import Crosslink.Proofs.Detaching

/-!
# Links taken out of attribute groups

To take links out of a test is to delete whole groups and parts of groups. The deletions can be carried out one
by one, the last one first; each leaves a source that is read, and of which what stands before the place is as
it was, so that the next one finds its group there.

* §1 `Stage`, a source in the course of an edit, and what one deletion leads to.
* §2 `exists_thinned`, one group that attributes are taken out of.
* §3 `exists_unlinked`, all groups of a test.
* §4 `links_of_remove`, the links of the tests of what is left.
-/

namespace Crosslink.AttributeList

open Splice Source Source.TokenSequence Source.AttributeGroup

variable {source out s : Text} {l l' : TokenSequence} {P M Q X Y Y' : List Piece} {file : File} {i o c : Nat}
  {t t' : Test} {g g' : AttributeGroup} {A B : List AttributeGroup} {a b : Attribute}
  {as bs cs : List Attribute}
  {imports : Imports} {targets : List Target}

/-! ## §1 One deletion -/

/-- Pieces of a source are deleted by their offsets. -/
theorem apply_delete (hcut : cut s = P ++ (M ++ Q)) :
    apply s [.delete ⟨Reading.extent P, Reading.extent (P ++ M)⟩] = .ok ((P ++ Q).flatMap Piece.text) := by
  obtain ⟨hsource, hout⟩ := texts_of_cut hcut
  generalize hx : P.flatMap Piece.text = x at hsource hout
  generalize hw : M.flatMap Piece.text = w at hsource
  generalize hy : Q.flatMap Piece.text = y at hsource hout
  have hstart : Reading.extent P = Text.width x := congrArg Text.width hx
  have hstop : Reading.extent (P ++ M) = Text.width (x ++ w) := by
    rw [← hx, ← hw, ← List.flatMap_append]
    rfl
  have hassoc : s = (x ++ w) ++ y := by rw [hsource, List.append_assoc]
  have hfits : Span.Fits s ⟨Text.width x, Text.width (x ++ w)⟩ := by
    refine ⟨?_, ?_, ?_⟩
    · rw [Text.width_append]
      exact Nat.le_add_right _ _
    · rw [hsource]
      exact Text.isBoundary_width _ _
    · rw [hassoc]
      exact Text.isBoundary_width _ _
  rw [hstart, hstop, apply_singleton hfits, weave, weave, hout]
  have hslice := Text.slice_middle [] x (w ++ y)
  rw [Text.width_nil, Nat.zero_add, List.nil_append] at hslice
  have hafter := Text.after_width (x ++ w) y
  rw [← hassoc] at hafter
  rw [← hsource] at hslice
  simp only [Splice.span, Splice.text, hafter, hslice, List.append_nil]

/-- A source in the course of an edit of a test: it has as many tests as the file, all others declare what they
declared, and `t` is the test at the place of the one that is edited. -/
structure Stage (file : File) (i : Nat) (s : Text) (t : Test) : Prop where
  pruned : ∃ file', Pruned file i s file' t
  editable : Editable s t.method

theorem SameReading.symm (h : SameReading a b) : SameReading b a := ⟨h.name.symm, h.arguments.symm⟩

theorem sameReading_symm (h : List.Forall₂ SameReading as bs) : List.Forall₂ SameReading bs as :=
  (h.imp fun _ _ hab => hab.symm).flip

theorem sameReading_refl (as : List Attribute) : List.Forall₂ SameReading as as :=
  List.forall₂_same.mpr fun _ _ => ⟨rfl, rfl⟩

/-- The attributes of groups that have moved. -/
theorem sameReading_groups {B' : List AttributeGroup} {n w : Nat} (h : B = B'.map (AttributeGroup.shift n w)) :
    List.Forall₂ SameReading (B.flatMap attributes) (B'.flatMap attributes) := by
  have hattributes : B.flatMap attributes = (B'.flatMap attributes).map (Attribute.shift w) := by
    rw [h]
    simp [AttributeGroup.shift, List.flatMap_map, List.map_flatMap]
  rw [hattributes]
  exact sameReading_symm (sameReading_shift w _)

/-- The groups of a test stand in its source. -/
theorem Stage.methodAt (h : Stage file i s t) : ∃ l, tokenize s = .ok l ∧ MethodAt l s t.method := by
  obtain ⟨file', hpruned⟩ := h.pruned
  obtain ⟨l, hl, rfl⟩ := exists_read hpruned.read
  obtain ⟨C₁, d, C₂, ms, m, ms', hclasses, hmethods, -, rfl, -⟩ := exists_method hpruned.test
  exact ⟨l, hl, methodAt_of_mem_classes hl (d := d) (m := m) (by rw [hclasses]; simp) (by rw [hmethods]; simp)⟩

/-- Attributes that link a test are taken out of one of its groups. -/
theorem Stage.trimmed (h : Stage file i s t) (hgroups : t.method.attributes = A ++ g :: B)
    (htidy : g.Tidy s) (hl : tokenize s = .ok l) (hat : GroupAt l s g o c)
    (htrim : Trim s l g o c as cs bs P M Q)
    (hcs : ∀ a ∈ cs, a.isLink = true) :
    ∃ out t' g' B', apply s [.delete ⟨Reading.extent P, Reading.extent (P ++ M)⟩] = .ok out ∧
      cut out = P ++ Q ∧ Stage file i out t' ∧ t'.method.attributes = A ++ g' :: B' ∧
      Trimmed g g' as bs (countIn M) (Reading.extent M) ∧ g'.Tidy out ∧
      List.Forall₂ SameReading (B.flatMap attributes) (B'.flatMap attributes) := by
  obtain ⟨file', hpruned⟩ := h.pruned
  obtain ⟨l', block, hl', hins, hflush⟩ := htrim.exists_read hl
  obtain ⟨g', hrem, htrimmed⟩ := htrim.exists_remainder hl hat hl' hins
  have htest : [g'].any (·.has testName) = g.has testName := by
    obtain ⟨bs', hattributes, hbs⟩ := htrimmed.attributes
    have hnone : cs.any (·.isNamed testName) = false := List.any_eq_false.mpr fun a ha => by
      rw [Bool.not_eq_true]
      obtain hname | hname := Bool.or_eq_true_iff.mp (hcs a ha)
      · exact isNamed_test hname (.inl rfl)
      · exact isNamed_test hname (.inr rfl)
    have hsame : bs.any (·.isNamed testName) = bs'.any (·.isNamed testName) := by
      rw [hbs, List.any_map]
      rfl
    simp only [List.any_cons, List.any_nil, Bool.or_false, AttributeGroup.has, hattributes, htrim.split,
      List.any_append, hnone, hsame, Bool.false_or]
  obtain ⟨file'', t', B', hpruned', heditable, hgroups', hB⟩ := exists_shed hpruned.read hpruned.test
    h.editable hgroups
    hl hat htrim.toExcision hl' rfl hins hflush hrem htest
  exact ⟨_, t', g', B', apply_delete htrim.cut, htrim.without,
    ⟨⟨file'', hpruned.trans hpruned'⟩, heditable⟩, hgroups', htrimmed, htrim.tidy htidy htrimmed,
    sameReading_groups hB⟩

/-- A group of a test that holds links only is taken out with the blanks that go with it. -/
theorem Stage.detached (h : Stage file i s t) (hgroups : t.method.attributes = A ++ g :: B) (htidy : g.Tidy s)
    (hdetach : Detachment g P M) (hcut : cut s = P ++ (M ++ Q))
    (hlinks : ∀ a ∈ g.attributes, a.isLink = true ∧ ∃ imports target, a.target imports = some target) :
    ∃ out t' B', apply s [.delete ⟨Reading.extent P, Reading.extent (P ++ M)⟩] = .ok out ∧
      cut out = P ++ Q ∧ Stage file i out t' ∧ t'.method.attributes = A ++ B' ∧
      List.Forall₂ SameReading (B.flatMap attributes) (B'.flatMap attributes) := by
  obtain ⟨file', hpruned⟩ := h.pruned
  obtain ⟨l, hl, hm⟩ := h.methodAt
  obtain ⟨o, c, hat⟩ := hm.groups g (by rw [hgroups]; simp)
  have hex := hdetach.excision hl hat htidy hcut fun a ha => (hlinks a ha).2
  obtain ⟨l', block, hl', hins, hflush⟩ := hex.exists_read hl
  have hrem := hdetach.remainder hl hat hcut hins
  have htest : ([] : List AttributeGroup).any (·.has testName) = g.has testName := by
    refine (List.any_eq_false.mpr fun a ha => ?_).symm
    rw [Bool.not_eq_true]
    obtain hname | hname := Bool.or_eq_true_iff.mp (hlinks a ha).1
    · exact isNamed_test hname (.inl rfl)
    · exact isNamed_test hname (.inr rfl)
  obtain ⟨file'', t', B', hpruned', heditable, hgroups', hB⟩ := exists_shed hpruned.read hpruned.test
    h.editable hgroups
    hl hat hex hl' rfl hins hflush hrem htest
  exact ⟨_, t', B', apply_delete hcut, hex.without, ⟨⟨file'', hpruned.trans hpruned'⟩, heditable⟩, hgroups',
    sameReading_groups hB⟩

/-! ## §2 One group -/

variable {f : Attribute → Bool} {b₂ z : Attribute} {bs' : List Attribute}

/-- The spans of attributes, with those flagged that are taken out. -/
def flagged (f : Attribute → Bool) (as : List Attribute) : List (Span × Bool) := as.map fun a => (a.span, f a)

theorem any_flagged (f : Attribute → Bool) (as : List Attribute) :
    (flagged f as).any (!·.2) = as.any (!f ·) := List.any_map

/-- What is deleted for an attribute before others of which some are left. -/
theorem drop_flagged (hany : (b₂ :: bs).any (!f ·) = true) :
    Edit.dropBeforeKept (flagged f (b :: b₂ :: bs)) =
      if f b then .delete ⟨b.span.start, b₂.span.start⟩ :: Edit.dropBeforeKept (flagged f (b₂ :: bs))
      else Edit.dropBeforeKept (flagged f (b₂ :: bs)) := by
  have hany' := (any_flagged f (b₂ :: bs)).trans hany
  simp only [flagged, List.map_cons] at hany' ⊢
  rw [Edit.dropBeforeKept, if_pos hany']

/-- What is deleted for the attributes after the last that is left. -/
theorem drop_flagged_last (hb : f b = false) (hall : ∀ d ∈ cs ++ [z], f d = true) :
    Edit.dropBeforeKept (flagged f (b :: (cs ++ [z]))) = [.delete ⟨b.span.stop, z.span.stop⟩] := by
  have hany : ¬ (flagged f (cs ++ [z])).any (!·.2) = true := by
    rw [any_flagged, List.any_eq_true]
    rintro ⟨d, hd, hf⟩
    rw [hall d hd] at hf
    cases hf
  have hlast : (flagged f (cs ++ [z])).getLast? = some (z.span, f z) := by
    rw [flagged, List.map_append]
    exact List.getLast?_concat
  obtain ⟨d, ds, hds⟩ : ∃ d ds, flagged f (cs ++ [z]) = d :: ds :=
    List.exists_cons_of_ne_nil (by simp [flagged])
  rw [show flagged f (b :: (cs ++ [z])) = (b.span, f b) :: flagged f (cs ++ [z]) from rfl]
  rw [hds] at hany hlast ⊢
  rw [Edit.dropBeforeKept, if_neg hany, if_neg (by simp [hb]), hlast]

/-- What is left of a source of which those of the attributes `bs` of a group are taken out that are flagged:
the group `g'` of the test `t'` has the attributes `bs'` in their place, the first of them starts where the
first of those did, and what stands before that is as it was. -/
structure Thinned (file : File) (i : Nat) (f : Attribute → Bool) (A B : List AttributeGroup) (s out : Text)
    (as bs : List Attribute) (t' : Test) (g' : AttributeGroup) (bs' : List Attribute) : Prop where
  folds : (Edit.dropBeforeKept (flagged f bs)).reverse.foldlM (fun t s => apply t [s]) s = .ok out
  stage : Stage file i out t'
  groups : ∃ B', t'.method.attributes = A ++ g' :: B' ∧
    List.Forall₂ SameReading (B.flatMap attributes) (B'.flatMap attributes)
  attributes : g'.attributes = as ++ bs'
  same : List.Forall₂ SameReading (bs.filter (!f ·)) bs'
  first : ∀ b ∈ bs.head?, ∀ b' ∈ bs'.head?, b'.span.start = b.span.start
  tidy : g'.Tidy out
  shared : ∃ X Y Y', cut s = X ++ Y ∧ cut out = X ++ Y' ∧ ∀ b ∈ bs.head?, b.span.start ≤ Reading.extent X

/-- The last attribute of a group stays. -/
theorem Stage.thinned_last (h : Stage file i s t) (hgroups : t.method.attributes = A ++ g :: B)
    (htidy : g.Tidy s) (hl : tokenize s = .ok l) (hat : GroupAt l s g o c)
    (hsplit : g.attributes = as ++ [b]) (hb : f b = false) :
    Thinned file i f A B s s as [b] t g [b] := by
  refine ⟨rfl, h, ⟨B, hgroups, sameReading_refl _⟩, hsplit, ?_, by simp, htidy, cut s, [], [], by simp, by simp,
    fun d hd => ?_⟩
  · rw [List.filter_cons, hb]
    exact sameReading_refl _
  · obtain rfl := Option.some.inj hd
    have hplaced := attributePlaced hl hat (a := b) (by rw [hsplit]; simp)
    rw [Reading.extent, cut_flatten]
    exact hplaced.lt.le.trans (Span.le_width_of_isBoundary hplaced.fits.stop)

/-- All attributes after one that stays go with the comma after it. -/
theorem Stage.thinned_tail (h : Stage file i s t) (hgroups : t.method.attributes = A ++ g :: B)
    (htidy : g.Tidy s) (hl : tokenize s = .ok l) (hat : GroupAt l s g o c)
    (hsplit : g.attributes = as ++ b :: (cs ++ [z])) (hb : f b = false) (hall : ∀ d ∈ cs ++ [z], f d = true)
    (hlinks : ∀ d ∈ cs ++ [z], d.isLink = true ∧ ∃ imports target, d.target imports = some target) :
    ∃ out t' g', Thinned file i f A B s out as (b :: (cs ++ [z])) t' g' [b] := by
  obtain ⟨P, M, Q, htrim, hP, hM⟩ := exists_trim_back hl hat htidy hsplit fun d hd => (hlinks d hd).2
  obtain ⟨out, t', g', B', happly, hcut, h', hgroups', htrimmed, htidy', hB'⟩ :=
    h.trimmed hgroups htidy hl hat htrim fun d hd => (hlinks d hd).1
  obtain ⟨bs', hattributes, hbs'⟩ := htrimmed.attributes
  obtain rfl : bs' = [] := List.map_eq_nil_iff.mp hbs'.symm
  rw [hP, hM] at happly
  refine ⟨out, t', g', ?_, h', ⟨B', hgroups', hB'⟩, by rw [hattributes]; simp, ?_, by simp, htidy', P,
    M ++ Q, Q, htrim.cut, hcut, fun x hx => ?_⟩
  · rw [drop_flagged_last hb hall]
    exact (bind_pure _).trans happly
  · have hnone : (cs ++ [z]).filter (!f ·) = [] :=
      List.filter_eq_nil_iff.mpr fun d hd => by rw [hall d hd]; simp
    rw [List.filter_cons, hb, hnone]
    exact sameReading_refl _
  · obtain rfl := Option.some.inj hx
    have := (attributePlaced hl hat (a := b) (by rw [hsplit]; simp)).lt
    omega

/-- Where some attributes are left, the first of them starts where the first of all did. -/
theorem Thinned.exists_head {t' : Test} (h : Thinned file i f A B s out as (b :: bs) t' g' bs')
    (hany : (b :: bs).any (!f ·) = true) : ∃ d ds, bs' = d :: ds ∧ d.span.start = b.span.start := by
  obtain ⟨d, ds, rfl⟩ : ∃ d ds, bs' = d :: ds := by
    refine List.exists_cons_of_ne_nil fun hnil => ?_
    have hsame := h.same
    rw [hnil, List.forall₂_nil_right_iff, List.filter_eq_nil_iff] at hsame
    obtain ⟨d, hd, hf⟩ := List.any_eq_true.mp hany
    exact hsame d hd hf
  exact ⟨d, ds, rfl, h.first b rfl d rfl⟩

/-- An attribute before those stays. -/
theorem Thinned.keep {t' : Test} (h : Thinned file i f A B s out (as ++ [b]) (b₂ :: bs) t' g' bs')
    (hb : f b = false) (hany : (b₂ :: bs).any (!f ·) = true) (hle : b.span.start ≤ b₂.span.start) :
    Thinned file i f A B s out as (b :: b₂ :: bs) t' g' (b :: bs') := by
  obtain ⟨X, Y, Y', hX, hX', hstart⟩ := h.shared
  refine ⟨?_, h.stage, h.groups, by rw [h.attributes]; simp, ?_, by simp, h.tidy, X, Y, Y', hX, hX',
    fun x hx => ?_⟩
  · rw [drop_flagged hany, if_neg (by simp [hb])]
    exact h.folds
  · rw [List.filter_cons, hb]
    exact .cons ⟨rfl, rfl⟩ h.same
  · obtain rfl := Option.some.inj hx
    exact hle.trans (hstart b₂ rfl)

/-- An attribute before those goes, up to the first of them. -/
theorem Thinned.drop {t₁ : Test} {out₁ : Text} {g₁ : AttributeGroup} {bs₁ : List Attribute}
    (h : Thinned file i f A B s out₁ (as ++ [b]) (b₂ :: bs) t₁ g₁ bs₁) (hb : f b = true)
    (hany : (b₂ :: bs).any (!f ·) = true) (hlt : b.span.start < b₂.span.start) (hlink : b.isLink = true)
    (htarget : ∃ imports target, b.target imports = some target) :
    ∃ out t' g' bs', Thinned file i f A B s out as (b :: b₂ :: bs) t' g' bs' := by
  obtain ⟨imports, target, htarget⟩ := htarget
  obtain ⟨d, ds, rfl, hd⟩ := h.exists_head hany
  obtain ⟨X, Y, Y', hX, hX', hle⟩ := h.shared
  replace hle : b₂.span.start ≤ Reading.extent X := hle b₂ rfl
  obtain ⟨B₁, hgroups₁, hB₁⟩ := h.groups
  have hsplit : g₁.attributes = as ++ b :: d :: ds := by rw [h.attributes]; simp
  obtain ⟨l, hl, hm⟩ := h.stage.methodAt
  obtain ⟨o, c, hat⟩ := hm.groups g₁ (by rw [hgroups₁]; simp)
  obtain ⟨P, M, Q, htrim, hP, hM⟩ := exists_trim_front hl hat h.tidy hsplit htarget
  obtain ⟨out, t', g', B', happly, hcut, h', hgroups', htrimmed, htidy', hB'⟩ :=
    h.stage.trimmed hgroups₁ h.tidy hl hat htrim (by simpa using hlink)
  obtain ⟨bs', hattributes, hbs'⟩ := htrimmed.attributes
  refine ⟨out, t', g', bs', ?_, h', ⟨B', hgroups', sameReading_trans hB₁ hB'⟩, hattributes, ?_, ?_, htidy', ?_⟩
  · rw [hP, hM, hd] at happly
    rw [drop_flagged hany, if_pos hb, List.reverse_cons, List.foldlM_append, h.folds]
    exact (bind_pure _).trans happly
  · rw [List.filter_cons, hb]
    refine sameReading_trans h.same ?_
    rw [hbs']
    exact sameReading_symm (sameReading_shift _ bs')
  · intro x hx y hy
    obtain rfl := Option.some.inj hx
    obtain ⟨ys, rfl⟩ := List.head?_eq_some_iff.mp hy
    rw [List.map_cons] at hbs'
    have hstart : d.span.start = y.span.start + Reading.extent M := by rw [(List.cons.inj hbs').1]; rfl
    rw [extent_append] at hM
    omega
  · obtain ⟨Z, rfl⟩ := prefix_of_extent (fun p hp => text_ne_nil_of_mem_cut hp) ⟨_, htrim.cut.symm⟩
      ⟨_, hX'.symm⟩ (by omega)
    refine ⟨P, Z ++ Y, Q, by rw [hX, List.append_assoc], hcut, fun x hx => ?_⟩
    obtain rfl := Option.some.inj hx
    exact hP.ge

/-- Attributes that link a test are taken out of one of its groups, of which others are left. -/
theorem Stage.exists_thinned (h : Stage file i s t) (hgroups : t.method.attributes = A ++ g :: B)
    (htidy : g.Tidy s) (hl : tokenize s = .ok l) (hat : GroupAt l s g o c) (hsplit : g.attributes = as ++ bs)
    (hkept : ∃ b ∈ bs, f b = false)
    (hlinks : ∀ b ∈ bs, f b = true → b.isLink = true ∧ ∃ imports target, b.target imports = some target) :
    ∃ out t' g' bs', Thinned file i f A B s out as bs t' g' bs' := by
  induction bs generalizing as with
  | nil => simp at hkept
  | cons b bs ih =>
    cases bs with
    | nil =>
      have hb : f b = false := by simpa using hkept
      exact ⟨s, t, g, [b], h.thinned_last hgroups htidy hl hat hsplit hb⟩
    | cons b₂ bs =>
      by_cases hany : (b₂ :: bs).any (!f ·) = true
      · -- some of those that follow are left
        have hlt := (attributePlaced hl hat (a := b) (by rw [hsplit]; simp)).lt
        have hnext := (order_of_split hl hat hsplit).2 b₂ List.mem_cons_self
        have hsplit' : g.attributes = (as ++ [b]) ++ b₂ :: bs := by rw [hsplit]; simp
        obtain ⟨out₁, t₁, g₁, bs₁, h₁⟩ :=
          ih hsplit' (by simpa using hany) fun d hd => hlinks d (List.mem_cons_of_mem _ hd)
        cases hb : f b with
        | true =>
          obtain ⟨hlink, htarget⟩ := hlinks b List.mem_cons_self hb
          exact h₁.drop hb hany (by omega) hlink htarget
        | false => exact ⟨out₁, t₁, g₁, b :: bs₁, h₁.keep hb hany (by omega)⟩
      · -- all that follow go with the comma after this one
        have hall : ∀ d ∈ b₂ :: bs, f d = true := fun d hd =>
          Bool.of_not_eq_false fun hf => hany (List.any_eq_true.mpr ⟨d, hd, by rw [hf]; rfl⟩)
        have hb : f b = false := by
          obtain ⟨d, hd, hf⟩ := hkept
          obtain rfl | hd := List.mem_cons.mp hd
          · exact hf
          · exact absurd (hall d hd) (by simp [hf])
        obtain ⟨cs, z, hcs⟩ : ∃ cs z, b₂ :: bs = cs ++ [z] := by
          obtain hnil | ⟨cs, z, hcs⟩ := List.eq_nil_or_concat (b₂ :: bs)
          · simp at hnil
          · exact ⟨cs, z, hcs.trans List.concat_eq_append⟩
        rw [hcs] at hsplit hall hlinks ⊢
        obtain ⟨out, t', g', hthin⟩ := h.thinned_tail hgroups htidy hl hat hsplit hb hall fun d hd =>
          hlinks d (List.mem_cons_of_mem _ hd) (hall d hd)
        exact ⟨out, t', g', [b], hthin⟩

/-! ## §3 All groups -/

/-- True for an attribute that is left when links to these targets are taken out. -/
def isKept (imports : Imports) (targets : List Target) (a : Attribute) : Bool :=
  !(a.isLink && (a.target imports).any targets.contains)

/-- A group of a source that links to these targets can be taken out of. -/
structure Removable (source : Text) (imports : Imports) (targets : List Target) (g : AttributeGroup) :
    Prop where
  tidy : (marks imports targets g).any id = true → g.Tidy source
  behind : Whole imports targets g → g.Behind source

theorem marks_eq (imports : Imports) (targets : List Target) (g : AttributeGroup) :
    marks imports targets g = g.attributes.map (!isKept imports targets ·) := by
  rw [marks]
  simp [isKept]

theorem of_not_isKept (h : isKept imports targets a = false) :
    a.isLink = true ∧ ∃ imports target, a.target imports = some target := by
  obtain ⟨hlink, hany⟩ := Bool.and_eq_true_iff.mp (by simpa [isKept] using h :
    (a.isLink && (a.target imports).any targets.contains) = true)
  obtain ⟨target, htarget, -⟩ := (Option.any_eq_true _ _).mp hany
  exact ⟨hlink, imports, target, htarget⟩

/-- What is deleted for a group ends before the groups below it. -/
theorem stop_le_of_removeFromGroup (hl : tokenize source = .ok l) {d : AttributeGroup} {o' c' : Nat}
    (hg : GroupAt l source g o c) (hd : GroupAt l source d o' c') (hgd : g.span.stop ≤ d.span.start) :
    ∀ s ∈ removeFromGroup source imports targets g, s.span.stop ≤ d.span.start := by
  intro s hs
  by_cases hwhole : Whole imports targets g
  · rw [removeFromGroup_of_whole hwhole] at hs
    obtain rfl := List.mem_singleton.mp hs
    exact Edit.takeOut_stop_le (hg.framed hl) (hd.framed hl) hgd
  · have := (rowed_removeFromGroup imports targets hl hg hwhole).1.within s hs
    omega

/-- A group is as tidy in another source that is the same up to its end. -/
theorem tidy_of_shared (h : g.Tidy source) (hcut : cut source = X ++ Y) (hcut' : cut s = X ++ Y')
    (hstop : g.span.stop ≤ Reading.extent X) : g.Tidy s := by
  intro A p R hcutA hstart hbefore houtside
  have hprefix : A ++ [p] <+: X := prefix_of_extent (fun q hq => text_ne_nil_of_mem_cut hq)
    ⟨R, by rw [hcutA, List.append_assoc]; rfl⟩ ⟨Y', hcut'.symm⟩ (by omega)
  obtain ⟨Z, rfl⟩ := hprefix
  exact h A p (Z ++ Y) (by rw [hcut]; simp) hstart hbefore houtside

/-- What is deleted for a group starts after the groups above it. -/
theorem le_start_of_removeFromGroup (hl : tokenize source = .ok l) {d : AttributeGroup} {o' c' : Nat}
    (hg : GroupAt l source g o c) (hd : GroupAt l source d o' c') (hgd : g.span.stop ≤ d.span.start) :
    ∀ s ∈ removeFromGroup source imports targets d, g.span.stop ≤ s.span.start := by
  intro s hs
  by_cases hwhole : Whole imports targets d
  · rw [removeFromGroup_of_whole hwhole] at hs
    obtain rfl := List.mem_singleton.mp hs
    exact Edit.le_takeOut_start (hg.framed hl) (hd.framed hl) hgd
  · have := (rowed_removeFromGroup imports targets hl hd hwhole).1.within s hs
    omega

/-- What is left of a source when links are taken out of the last group that is still to be edited: the groups
`gs` stand in its place, and the source is as it was up to the first of the deletions and the group. -/
structure Passed (source out : Text) (file : File) (i : Nat) (imports : Imports) (targets : List Target)
    (A : List AttributeGroup) (g : AttributeGroup) (B : List AttributeGroup) (t' : Test) : Prop where
  stage : Stage file i out t'
  groups : ∃ gs B', t'.method.attributes = A ++ (gs ++ B') ∧
    List.Forall₂ SameReading (g.attributes.filter (isKept imports targets)) (gs.flatMap attributes) ∧
    List.Forall₂ SameReading (B.flatMap attributes) (B'.flatMap attributes)
  shared : ∃ X Y Y', cut source = X ++ Y ∧ cut out = X ++ Y' ∧ ∀ n, n ≤ g.span.start →
    (∀ a ∈ removeFromGroup source imports targets g, n ≤ a.span.start) → n ≤ Reading.extent X

variable (imports targets) in
/-- A group that holds links to the targets only goes as a whole. -/
theorem Stage.passed_whole (h : Stage file i s t) (hgroups : t.method.attributes = A ++ g :: B)
    (hl : tokenize source = .ok l) (hat : GroupAt l source g o c)
    (hremovable : Removable source imports targets g)
    (hwhole : Whole imports targets g) (hcut : cut source = X ++ Y) (hcut' : cut s = X ++ Y')
    (hstop : g.span.stop ≤ Reading.extent X)
    (hstops : ∀ a ∈ removeFromGroup source imports targets g, a.span.stop ≤ Reading.extent X) :
    ∃ out t', (removeFromGroup source imports targets g).reverse.foldlM (fun t s => apply t [s]) s = .ok out ∧
      Passed source out file i imports targets A g B t' := by
  obtain ⟨P, M, Q, hcutP, hdetach, htake⟩ := exists_detachment hl hat (hremovable.behind hwhole)
  have hremove : removeFromGroup source imports targets g = _ := removeFromGroup_of_whole hwhole
  rw [htake] at hremove
  rw [hremove] at hstops ⊢
  obtain ⟨Z, rfl⟩ : P ++ M <+: X := prefix_of_extent (fun p hp => text_ne_nil_of_mem_cut hp)
    ⟨Q, by rw [hcutP, List.append_assoc]⟩ ⟨Y, hcut.symm⟩ (hstops _ (List.mem_singleton_self _))
  have hnone : ∀ a ∈ g.attributes, isKept imports targets a = false := fun a ha => by
    have hmark := List.all_eq_true.mp hwhole.2 (!isKept imports targets a)
      (by rw [marks_eq]; exact List.mem_map_of_mem ha)
    simpa using hmark
  obtain ⟨out, t', B', happly, hcutout, h', hgroups', hB⟩ := h.detached hgroups
    (tidy_of_shared (hremovable.tidy hwhole.1) hcut hcut' hstop) hdetach (Q := Z ++ Y') (by rw [hcut']; simp)
    fun a ha => of_not_isKept (hnone a ha)
  refine ⟨out, t', (bind_pure _).trans happly, h', ⟨[], B', hgroups', ?_, hB⟩, P, M ++ Q, Z ++ Y', hcutP,
    hcutout, fun n _ hn => ?_⟩
  · have hfilter : g.attributes.filter (isKept imports targets) = [] :=
      List.filter_eq_nil_iff.mpr fun a ha => by rw [hnone a ha]; simp
    rw [hfilter]
    exact .nil
  · rw [hremove] at hn
    exact hn _ (List.mem_singleton_self _)

variable (imports targets) in
/-- Of a group that holds links to the targets among others some attributes go. -/
theorem Stage.passed_part (h : Stage file i s t) (hgroups : t.method.attributes = A ++ g :: B)
    (hl : tokenize source = .ok l) (hat : GroupAt l source g o c)
    (hremovable : Removable source imports targets g)
    (hany : (marks imports targets g).any id = true) (hwhole : ¬ Whole imports targets g)
    (hcut : cut source = X ++ Y) (hcut' : cut s = X ++ Y') (hstop : g.span.stop ≤ Reading.extent X) :
    ∃ out t', (removeFromGroup source imports targets g).reverse.foldlM (fun t s => apply t [s]) s = .ok out ∧
      Passed source out file i imports targets A g B t' := by
  have hremove : removeFromGroup source imports targets g =
      Edit.dropBeforeKept (flagged (!isKept imports targets ·) g.attributes) := by
    rw [removeFromGroup, if_pos hany, if_neg fun hall => hwhole ⟨hany, hall⟩, Edit.dropItems, marks_eq, flagged,
      List.zip_map']
  have hkept : ∃ a ∈ g.attributes, (!isKept imports targets a) = false := by
    have hall : ¬ (marks imports targets g).all id = true := fun hall => hwhole ⟨hany, hall⟩
    rw [marks_eq, List.all_map, List.all_eq_true] at hall
    push Not at hall
    simpa using hall
  obtain ⟨l', hl', hm⟩ := h.methodAt
  obtain ⟨o', c', hat'⟩ := hm.groups g (by rw [hgroups]; simp)
  obtain ⟨out, t', g', bs', hthin⟩ := h.exists_thinned hgroups
    (tidy_of_shared (hremovable.tidy hany) hcut hcut' hstop) hl' hat' (List.nil_append _).symm hkept
    fun a _ ha => of_not_isKept (by simpa using ha)
  obtain ⟨X₁, Y₁, Y₁', hX, hX', hle⟩ := hthin.shared
  obtain ⟨B', hgroups', hB⟩ := hthin.groups
  have hsame := hthin.same
  refine ⟨out, t', by rw [hremove]; exact hthin.folds, hthin.stage, ⟨[g'], B', hgroups', ?_, hB⟩, ?_⟩
  · have hnot : (fun a => !(!isKept imports targets a)) = isKept imports targets :=
      funext fun a => Bool.not_not _
    rw [List.flatMap_singleton, hthin.attributes, List.nil_append]
    rwa [hnot] at hsame
  · obtain hle' | hle' := List.prefix_or_prefix_of_prefix ⟨Y', hcut'.symm⟩ ⟨Y₁, hX.symm⟩
    · obtain ⟨Z, rfl⟩ := hle'
      have := (hat.covers.lt hl).le
      exact ⟨X, Y, Z ++ Y₁', hcut, by rw [hX', List.append_assoc], fun n hn _ => by omega⟩
    · obtain ⟨Z, rfl⟩ := hle'
      obtain ⟨a, ha, -⟩ := hkept
      obtain ⟨b, bs, hbs⟩ := List.exists_cons_of_ne_nil (List.ne_nil_of_mem ha)
      have hb := hle b (by rw [hbs]; rfl)
      have := (attributePlaced hl hat (a := b) (by rw [hbs]; simp)).start
      exact ⟨X₁, Z ++ Y, Y₁', by rw [hcut, List.append_assoc], hX', fun n hn _ => by omega⟩

/-- A group that holds no links to the targets stays. -/
theorem Stage.passed_none (h : Stage file i s t) (hgroups : t.method.attributes = A ++ g :: B)
    (hl : tokenize source = .ok l) (hat : GroupAt l source g o c)
    (hnone : (marks imports targets g).any id = false) (hcut : cut source = X ++ Y) (hcut' : cut s = X ++ Y')
    (hstop : g.span.stop ≤ Reading.extent X) : Passed source s file i imports targets A g B t := by
  have hkept : g.attributes.filter (isKept imports targets) = g.attributes := by
    rw [marks_eq, List.any_map, List.any_eq_false] at hnone
    exact List.filter_eq_self.mpr fun a ha => by simpa using hnone a ha
  have := (hat.covers.lt hl).le
  refine ⟨h, ⟨[g], B, hgroups, ?_, sameReading_refl _⟩, X, Y, Y', hcut, hcut', fun n hn _ => by omega⟩
  rw [hkept, List.flatMap_singleton]
  exact sameReading_refl _

variable (imports targets) in
/-- The last group that is still to be edited. -/
theorem Stage.exists_passed (h : Stage file i s t) (hgroups : t.method.attributes = A ++ g :: B)
    (hl : tokenize source = .ok l) (hat : GroupAt l source g o c)
    (hremovable : Removable source imports targets g)
    (hcut : cut source = X ++ Y) (hcut' : cut s = X ++ Y') (hstop : g.span.stop ≤ Reading.extent X)
    (hstops : ∀ a ∈ removeFromGroup source imports targets g, a.span.stop ≤ Reading.extent X) :
    ∃ out t', (removeFromGroup source imports targets g).reverse.foldlM (fun t s => apply t [s]) s = .ok out ∧
      Passed source out file i imports targets A g B t' := by
  by_cases hany : (marks imports targets g).any id = true
  · by_cases hwhole : Whole imports targets g
    · exact h.passed_whole imports targets hgroups hl hat hremovable hwhole hcut hcut' hstop hstops
    · exact h.passed_part imports targets hgroups hl hat hremovable hany hwhole hcut hcut' hstop
  · have hnone := Bool.eq_false_iff.mpr hany
    refine ⟨s, t, ?_, h.passed_none hgroups hl hat hnone hcut hcut' hstop⟩
    rw [removeFromGroup, if_neg hany]
    rfl

/-- What is deleted for a group starts before its end. -/
theorem start_lt_of_removeFromGroup (hl : tokenize source = .ok l) (hg : GroupAt l source g o c) :
    ∀ s ∈ removeFromGroup source imports targets g, s.span.start < g.span.stop := by
  intro s hs
  have hlt := hg.covers.lt hl
  by_cases hwhole : Whole imports targets g
  · rw [removeFromGroup_of_whole hwhole] at hs
    obtain rfl := List.mem_singleton.mp hs
    obtain ⟨-, hstart, -⟩ := Edit.takeOut_holds (hg.framed hl)
    omega
  · obtain ⟨hrowed, hpos⟩ := rowed_removeFromGroup imports targets hl hg hwhole
    have := hrowed.within s hs
    have := hpos s hs
    omega

/-- Deletions that keep clear of each other stand one behind the other. -/
theorem order_removeFromGroup {m : Method} (hl : tokenize source = .ok l) (hm : MethodAt l source m)
    (h : ¬ Contends source imports targets m) :
    (m.attributes.flatMap (removeFromGroup source imports targets)).Pairwise fun a b =>
      a.span.stop ≤ b.span.start := by
  have hclear := (clear_removeSplices_iff hl hm).mpr h
  rw [flatMap_groupsWithLinks, List.pairwise_flatMap] at hclear
  refine List.pairwise_flatMap.mpr ⟨fun g hg => ?_, ((groups_order hl hm).and hclear.2).imp_of_mem ?_⟩
  · obtain ⟨o, c, hat⟩ := hm.groups g hg
    by_cases hwhole : Whole imports targets g
    · rw [removeFromGroup_of_whole hwhole]
      exact List.pairwise_singleton _ _
    · exact (rowed_removeFromGroup imports targets hl hat hwhole).1.order
  · intro g d hg hd ⟨hgd, hclear⟩ s hs t ht
    obtain ⟨o, c, hat⟩ := hm.groups g hg
    obtain ⟨o', c', hat'⟩ := hm.groups d hd
    have hstart := start_lt_of_removeFromGroup hl hat s hs
    have hstart' := le_start_of_removeFromGroup hl hat hat' hgd t ht
    have hlt := ((removeFromGroup_holds hl hat').1 t ht).2
    obtain hst | hts := hclear s hs t ht
    · exact hst
    · omega

/-- Links are taken out of the last groups of a test, one deletion after the other. -/
theorem Stage.exists_unlinked (h : Stage file i source t) (hl : tokenize source = .ok l)
    (hm : MethodAt l source t.method)
    (hremovable : ∀ g ∈ t.method.attributes, Removable source imports targets g)
    (horder : (t.method.attributes.flatMap (removeFromGroup source imports targets)).Pairwise fun a b =>
      a.span.stop ≤ b.span.start) (hsplit : t.method.attributes = A ++ B) :
    ∃ out t' B',
      (B.flatMap (removeFromGroup source imports targets)).reverse.foldlM (fun t s => apply t [s]) source =
        .ok out ∧
      Stage file i out t' ∧ t'.method.attributes = A ++ B' ∧
      List.Forall₂ SameReading ((B.flatMap attributes).filter (isKept imports targets))
        (B'.flatMap attributes) ∧
      ∃ X Y Y', cut source = X ++ Y ∧ cut out = X ++ Y' ∧ ∀ n, n ≤ Text.width source →
        (∀ g ∈ B, n ≤ g.span.start) →
        (∀ s ∈ B.flatMap (removeFromGroup source imports targets), n ≤ s.span.start) →
        n ≤ Reading.extent X := by
  induction B generalizing A with
  | nil =>
    refine ⟨source, t, [], rfl, h, hsplit, .nil, cut source, [], [], by simp, by simp, fun n hn _ _ => ?_⟩
    rwa [Reading.extent, cut_flatten]
  | cons g B ih =>
    obtain ⟨out₁, t₁, B₁, hfold, h₁, hgroups, hsame, X, Y, Y', hcut, hcut', hshared⟩ :=
      ih (A := A ++ [g]) (by rw [hsplit]; simp)
    obtain ⟨o, c, hat⟩ := hm.groups g (by rw [hsplit]; simp)
    have hbelow : ∀ d ∈ B, g.span.stop ≤ d.span.start ∧ ∃ o c, GroupAt l source d o c := fun d hd => by
      have hgroups := groups_order hl hm
      rw [hsplit] at hgroups
      exact ⟨(List.pairwise_cons.mp (List.pairwise_append.mp hgroups).2.1).1 d hd,
        hm.groups d (by rw [hsplit]; simp [hd])⟩
    have hstop : g.span.stop ≤ Reading.extent X := by
      refine hshared _ (Span.le_width_of_isBoundary (Edit.fits_of_framed (hat.framed hl)).stop)
        (fun d hd => (hbelow d hd).1)
        fun s hs => ?_
      obtain ⟨d, hd, hs⟩ := List.mem_flatMap.mp hs
      obtain ⟨hgd, o', c', hat'⟩ := hbelow d hd
      exact le_start_of_removeFromGroup hl hat hat' hgd s hs
    have hstops : ∀ a ∈ removeFromGroup source imports targets g, a.span.stop ≤ Reading.extent X := by
      intro a ha
      refine hshared _ (Span.le_width_of_isBoundary ((removeFromGroup_holds hl hat).1 a ha).1.stop)
        (fun d hd => ?_) fun s hs => ?_
      · obtain ⟨hgd, o', c', hat'⟩ := hbelow d hd
        exact stop_le_of_removeFromGroup hl hat hat' hgd a ha
      · rw [hsplit, List.flatMap_append, List.flatMap_cons] at horder
        exact (List.pairwise_append.mp (List.pairwise_append.mp horder).2.1).2.2 a ha s hs
    obtain ⟨out, t', hfold', hpassed⟩ := h₁.exists_passed imports targets (A := A) (g := g) (B := B₁)
      (by rw [hgroups]; simp) hl hat (hremovable g (by rw [hsplit]; simp)) hcut hcut' hstop hstops
    obtain ⟨gs, B', hgroups', hfirst, hrest⟩ := hpassed.groups
    obtain ⟨X', Z, Z', hX, hX', hle⟩ := hpassed.shared
    refine ⟨out, t', gs ++ B', ?_, hpassed.stage, hgroups', ?_, X', Z, Z', hX, hX', fun n _ hn hn' => ?_⟩
    · rw [List.flatMap_cons, List.reverse_append, List.foldlM_append, hfold]
      exact hfold'
    · rw [List.flatMap_cons, List.filter_append, List.flatMap_append]
      exact List.rel_append hfirst (sameReading_trans hsame hrest)
    · rw [List.flatMap_cons] at hn'
      exact hle n (hn g List.mem_cons_self) fun a ha => hn' a (List.mem_append_left _ ha)

/-! ## §4 Links of tests -/

variable (imports targets) in
/-- The links that some attributes declare when those go that name the targets. -/
theorem links_of_kept (as : List Attribute) :
    ((as.filter (isKept imports targets)).filter Attribute.isLink).filterMap (linkOf imports) =
      ((as.filter Attribute.isLink).filterMap (linkOf imports)).filter (FluentChain.unwanted targets) := by
  induction as with
  | nil => rfl
  | cons a as ih =>
    cases hlink : a.isLink with
    | false => simpa [isKept, hlink] using ih
    | true =>
      cases htarget : a.target imports with
      | none =>
        have hnone : linkOf imports a = none := by rw [linkOf, htarget]; rfl
        simpa [isKept, hlink, htarget, hnone] using ih
      | some w =>
        have hsome : linkOf imports a = some ⟨w, a.isNamed linksAndCoversName⟩ := by rw [linkOf, htarget]; rfl
        by_cases hw : w ∈ targets
        · simpa [isKept, hlink, htarget, hsome, FluentChain.unwanted, hw] using ih
        · simpa [isKept, hlink, htarget, hsome, FluentChain.unwanted, hw] using ih

/-- A source is left as it is when none of the links to be removed is declared. -/
theorem remove_of_undeclared {r : TestCase} {names : List Text} (hread : File.read source = .ok file)
    (ht : file.tests[i]? = some t) (hr : FluentChain.Recorded t.case r)
    (hnames : parseTargets names = .ok targets)
    (h : ∀ k ∈ t.case.links, k.target ∉ targets) : remove source r names = .ok source := by
  have hlacks : ∀ g ∈ t.method.attributes, Lacks file.imports targets g := by
    obtain ⟨l, hl, rfl⟩ := exists_read hread
    obtain ⟨C₁, c, C₂, ms, m, ms', -, -, -, rfl, -⟩ := exists_method ht
    exact lacks_of_links h
  have hnone : t.method.attributes.flatMap (removeFromGroup source file.imports targets) = [] :=
    List.flatMap_eq_nil_iff.mpr fun g hg => removeFromGroup_of_absent (hlacks g hg)
  rw [remove_eq (locate_eq hread ht hr) hnames, flatMap_groupsWithLinks, hnone, applyEdit_nil]

/-- **Links removed from attribute groups.** Where links are removed from a test the source that is left holds
as many tests, the test at the same place declares the links that were not removed, in their order, and every
other test declares what it declared. -/
theorem links_of_remove {r : TestCase} {names : List Text} (hread : File.read source = .ok file)
    (ht : file.tests[i]? = some t) (hlocate : locate source r = .ok (file, t))
    (hnames : parseTargets names = .ok targets)
    (heditable : Editable source t.method)
    (hremovable : ∀ g ∈ t.method.attributes, Removable source file.imports targets g)
    (hremove : remove source r names = .ok out) :
    ∃ file' t', Pruned file i out file' t' ∧
      t'.case.links = t.case.links.filter (FluentChain.unwanted targets) := by
  have hstage : Stage file i source t := ⟨⟨file, .refl hread ht⟩, heditable⟩
  obtain ⟨l, hl, hm⟩ := hstage.methodAt
  rw [remove_eq hlocate hnames] at hremove
  have hcalm : ¬ Contends source file.imports targets t.method := fun hcontends => by
    obtain ⟨e, he⟩ := (applyEdit_removeSplices_iff hl hm).mpr hcontends
    rw [hremove] at he
    cases he
  have horder := order_removeFromGroup hl hm hcalm
  obtain ⟨out', t', B, hfold, hstage', hgroups, hsame, -⟩ := hstage.exists_unlinked hl hm hremovable horder
    (A := []) (List.nil_append _).symm
  -- the edits one after the other come to the same as all at once
  obtain rfl : out' = out := by
    have hfits : ∀ s ∈ t.method.attributes.flatMap (removeFromGroup source file.imports targets),
        s.span.Fits source := fun s hs => by
      obtain ⟨g, hg, hs⟩ := List.mem_flatMap.mp hs
      obtain ⟨o, c, hat⟩ := hm.groups g hg
      exact ((removeFromGroup_holds hl hat).1 s hs).1
    have hrowed : Rowed source 0 (Text.width source)
        (t.method.attributes.flatMap (removeFromGroup source file.imports targets)) :=
      ⟨hfits, fun s hs => ⟨Nat.zero_le _, Span.le_width_of_isBoundary (hfits s hs).stop⟩, horder⟩
    rw [flatMap_groupsWithLinks] at hremove
    have happly := apply_of_applyEdit hremove
    rw [hrowed.apply_eq] at happly
    rw [foldlM_reverse hfits horder] at hfold
    exact Except.ok.inj (hfold.symm.trans happly)
  obtain ⟨file', hpruned⟩ := hstage'.pruned
  refine ⟨file', t', hpruned, ?_⟩
  rw [links_eq hpruned.read hpruned.test, links_eq hread ht, hpruned.imports, linksOf, linksOf,
    linkAttributes_eq, linkAttributes_eq, attributesOf, attributesOf, hgroups, List.nil_append, ← links_of_kept]
  exact links_of_same hsame file.imports

end Crosslink.AttributeList
