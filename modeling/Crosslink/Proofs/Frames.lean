import Crosslink.Proofs.Planting
import Crosslink.Proofs.Beginnings

/-!
# Sources with the same tests

Two sources have the same tests but for the links of one when each can be made from the other by
putting calls and arguments into the chain of that test, and taking them out of it.

* §1 `Frame`, the relation.
* §2 `Graft.frame`, one piece of a chain more or less.
-/

namespace Crosslink.FluentChain

open Source Source.TokenSequence Source.Inserted

/-! ## 1. The relation -/

/-- A test found again: with its name and its identifier where `T` holds, and with its links unless
it is the one called at the token `o`. -/
structure Kept (T : Prop) (o : Nat) (p q : Nat × Test) : Prop where
  name : T → q.2.case.name = p.2.case.name
  identifier : T → q.2.case.identifier = p.2.case.identifier
  site : q.1 = o ↔ p.1 = o
  links : p.1 ≠ o → q.2.case.links = p.2.case.links

section

variable {T : Prop} {o : Nat} {p q r : Nat × Test}

theorem Kept.refl (T : Prop) (o : Nat) (p : Nat × Test) : Kept T o p p :=
  ⟨fun _ => rfl, fun _ => rfl, Iff.rfl, fun _ => rfl⟩

theorem Kept.symm (h : Kept T o p q) : Kept T o q p :=
  ⟨fun ht => (h.name ht).symm, fun ht => (h.identifier ht).symm, h.site.symm,
    fun hq => (h.links (mt h.site.mpr hq)).symm⟩

theorem Kept.trans (h : Kept T o p q) (h' : Kept T o q r) : Kept T o p r :=
  ⟨fun ht => (h'.name ht).trans (h.name ht), fun ht => (h'.identifier ht).trans (h.identifier ht),
    h'.site.trans h.site, fun hp => (h'.links (mt h.site.mp hp)).trans (h.links hp)⟩

end

/-- Two sources hold the same tests, in the same order. All but the one called at the token `o`
declare the same links when both are read with the same imports, and all have their names when
titles are quoted texts. -/
structure Frame (o : Nat) (source : Text) (l : TokenSequence) (source' : Text) (l' : TokenSequence) :
    Prop where
  titled : Titled l' source' ↔ Titled l source
  tests : ∀ imports, List.Forall₂ (Kept (Titled l source) o) (located l source imports)
    (located l' source' imports)

namespace Frame

variable {o : Nat} {source source' source'' : Text} {l l' l'' : TokenSequence}

theorem refl (o : Nat) (source : Text) (l : TokenSequence) : Frame o source l source l :=
  ⟨Iff.rfl, fun _ => List.forall₂_same.mpr fun p _ => Kept.refl _ o p⟩

theorem symm (h : Frame o source l source' l') : Frame o source' l' source l := by
  refine ⟨h.titled.symm, fun imports => ?_⟩
  rw [propext h.titled]
  exact (h.tests imports).flip.imp fun _ _ hk => hk.symm

theorem trans (h : Frame o source l source' l') (h' : Frame o source' l' source'' l'') :
    Frame o source l source'' l'' := by
  refine ⟨h'.titled.trans h.titled, fun imports => ?_⟩
  have h₁ := h.tests imports
  have h₂ := h'.tests imports
  rw [propext h.titled] at h₂
  generalize located l source imports = ps at h₁
  generalize located l' source' imports = qs at h₁ h₂
  generalize located l'' source'' imports = rs at h₂ ⊢
  induction h₁ generalizing rs with
  | nil =>
    cases h₂
    exact .nil
  | cons hk rest ih =>
    cases h₂ with
    | cons hk' rest' => exact .cons (hk.trans hk') (ih _ rest')

end Frame

/-! ## 2. One piece more -/

theorem Graft.frame {k n : Nat} {block : Array Token} {a m b : Text} {l l' : TokenSequence}
    {x y o c : Nat} {keyword : Keyword} (h : Graft k n block a m b l l' x y)
    (hs : siteAt l o = some (keyword, c)) (ho : o < k) (hreach : Reaches l (c + 1) (y + 1)) :
    Frame o (a ++ b) l (a ++ (m ++ b)) l' := by
  refine ⟨h.titled_lift, fun imports => ?_⟩
  have hall : List.Forall₂ (fun p q => p ∈ located l (a ++ b) imports ∧
      (q.1 = lift k n p.1 ∧ Again l (Titled l (a ++ b)) y p.1 p.2 q.2))
      (located l (a ++ b) imports) (located l' (a ++ (m ++ b)) imports) :=
    (List.forall₂_and_left _ _).mpr ⟨fun _ hp => hp, h.located_lift imports⟩
  refine hall.imp ?_
  rintro p q ⟨hp, hlift, hagain⟩
  refine ⟨hagain.name, hagain.identifier, ?_, fun hne => ?_⟩
  · rw [hlift]
    unfold lift
    split <;> omega
  · obtain ⟨keyword', close, t, hsite, -, -⟩ := siteAt_of_mem_located hp
    exact hagain.links keyword' close hsite fun hr =>
      hne (site_unique h.inserted.nested hsite hs hr hreach)

end Crosslink.FluentChain
