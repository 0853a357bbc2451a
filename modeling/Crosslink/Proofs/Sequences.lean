import Crosslink.Proofs.Apart
import Crosslink.Proofs.Changes

/-!
# Edits of a chain

An edit is a list of splices in order, each of them a change of the chain. Carried out from the last
to the first, each changes the source after the place of those before it, so that they are still
changes when their turn comes.

* §1 `Changes`, such a list.
* §2 `Changes.edited`, what the edited source is read as.
-/

namespace Crosslink.FluentChain

open Source Source.TokenSequence

variable {source : Text} {l l' : TokenSequence} {start o c : Nat} {A M M' B P P' Q R : List Piece}
  {keyword : Keyword} {splices : List Splice} {s : Splice}
  {T : Prop}

/-! ## 1. Lists of changes -/

/-- The splice puts the pieces `M'` in the place of the pieces `M` after the pieces `A`. It need not
touch what they begin with and end with alike. -/
structure Realizes (s : Splice) (A M M' : List Piece) : Prop where
  effect : ∃ pre old post : Text, M.flatMap Piece.text = pre ++ (old ++ post) ∧
    M'.flatMap Piece.text = pre ++ (s.text ++ post) ∧
    s.span.start = Reading.extent A + Text.width pre ∧
    s.span.stop = Reading.extent A + Text.width pre + Text.width old

/-- Splices in order, each of them a change of the chain, that make the second pieces of the first.
A code tag may be put in where `T` holds. -/
inductive Changes (l : TokenSequence) (start : Nat) (T : Prop) :
    List Piece → List Splice → List Piece → Prop
  | nil (P : List Piece) : Changes l start T P [] P
  | snoc {A A' M M' B R : List Piece} {splices : List Splice} {s : Splice}
      (rest : Changes l start T A splices A') (change : Change l start A M M' B)
      (realizes : Realizes s A M M') (tag : "<?".toList <:+: M'.flatMap Piece.text → T) :
      Changes l start T (A ++ (M ++ (B ++ R))) (splices ++ [s]) (A' ++ (M' ++ (B ++ R)))

namespace Changes

theorem extend (h : Changes l start T P splices P') (R : List Piece) :
    Changes l start T (P ++ R) splices (P' ++ R) := by
  cases h with
  | nil => exact .nil _
  | @snoc A A' M M' B R' splices s rest change realizes tag =>
    simp only [List.append_assoc]
    exact .snoc rest change realizes tag

/-- Where the splices are: one after the other within the pieces, between two characters. -/
theorem bounds (h : Changes l start T P splices P') :
    (∀ t ∈ splices, t.span.start ≤ t.span.stop ∧
      Text.isBoundary t.span.start (P.flatMap Piece.text) = true ∧
      Text.isBoundary t.span.stop (P.flatMap Piece.text) = true ∧
      t.span.stop ≤ Reading.extent P) ∧
    splices.Pairwise fun a b => a.span.stop ≤ b.span.start := by
  induction h with
  | nil => exact ⟨by simp, .nil⟩
  | @snoc A A' M M' B R splices s rest change realizes tag ih =>
    obtain ⟨hall, hsorted⟩ := ih
    obtain ⟨pre, old, post, hold, -, hstart, hstop⟩ := realizes.effect
    have hM : Reading.extent M = Text.width pre + (Text.width old + Text.width post) := by
      rw [Reading.extent, hold, Text.width_append, Text.width_append]
    have hkept : ∀ n, Text.isBoundary n (A.flatMap Piece.text) = true →
        Text.isBoundary n ((A ++ (M ++ (B ++ R))).flatMap Piece.text) = true := by
      intro n hn
      obtain ⟨x, y, hxy, hx⟩ := Text.isBoundary_iff.mp hn
      rw [List.flatMap_append, hxy]
      exact Text.isBoundary_iff.mpr ⟨x, _, List.append_assoc _ _ _, hx⟩
    refine ⟨fun t ht => ?_, List.pairwise_append.mpr ⟨hsorted, List.pairwise_singleton _ _, ?_⟩⟩
    · obtain ht | ht := List.mem_append.mp ht
      · obtain ⟨h₁, h₂, h₃, h₄⟩ := hall t ht
        exact ⟨h₁, hkept _ h₂, hkept _ h₃, by rw [extent_append]; omega⟩
      · obtain rfl : t = s := by simpa using ht
        refine ⟨by omega, ?_, ?_, by rw [extent_append, extent_append]; omega⟩
        · rw [hstart]
          refine Text.isBoundary_iff.mpr ⟨A.flatMap Piece.text ++ pre,
            old ++ post ++ (B ++ R).flatMap Piece.text, by simp [hold], by simp [Reading.extent]⟩
        · rw [hstop]
          refine Text.isBoundary_iff.mpr ⟨A.flatMap Piece.text ++ (pre ++ old),
            post ++ (B ++ R).flatMap Piece.text, by simp [hold], by simp [Reading.extent, Nat.add_assoc]⟩
    · intro t ht u hu
      obtain rfl : u = s := by simpa using hu
      obtain ⟨-, -, -, h₄⟩ := hall t ht
      omega

/-- Such splices can be carried out. -/
theorem apply_eq (h : Changes l start T P splices P') (hcut : Source.cut source = P ++ Q) :
    Splice.apply source splices = .ok (Splice.weave source 0 splices) := by
  obtain ⟨hall, hsorted⟩ := h.bounds
  have hsource : source = P.flatMap Piece.text ++ Q.flatMap Piece.text := by
    conv => lhs; rw [source_eq hcut]
    simp
  have hkept : ∀ n, Text.isBoundary n (P.flatMap Piece.text) = true →
      Text.isBoundary n source = true := by
    intro n hn
    obtain ⟨x, y, hxy, hx⟩ := Text.isBoundary_iff.mp hn
    rw [hsource, hxy]
    exact Text.isBoundary_iff.mpr ⟨x, _, List.append_assoc _ _ _, hx⟩
  have hrow : Splice.Rowed source 0 (Text.width (P.flatMap Piece.text)) splices :=
    { fits := fun s hs => by
        obtain ⟨h₁, h₂, h₃, -⟩ := hall s hs
        exact ⟨h₁, hkept _ h₂, hkept _ h₃⟩
      within := fun s hs => by
        obtain ⟨-, -, -, h₄⟩ := hall s hs
        exact ⟨Nat.zero_le _, h₄⟩
      order := hsorted }
  exact hrow.apply_eq

/-! ## 2. The edited source -/

/-- The edited source is cut into the new pieces, and but for the chain it is read as before. -/
theorem edited (h : Changes l start T P splices P') (hstart : start = c + 1)
    (hb : Begins (countIn P) l l') (hl' : tokenize source = .ok l')
    (hcut : Source.cut source = P ++ Q) (hsp : Spaced (P ++ Q))
    (hs : siteAt l' o = some (keyword, c)) (hapart : Apart l' c (countIn P))
    (hT : T → "<?".toList <:+: source) :
    ∃ l'', Splice.weave source 0 splices = (P' ++ Q).flatMap Piece.text ∧
      Changed o source l' (P' ++ Q) l'' := by
  induction h generalizing source l' Q with
  | nil P =>
    refine ⟨l', ?_, .refl hcut hl' hsp⟩
    rw [← source_eq hcut, Splice.weave, Text.after_zero]
  | @snoc A A' M M' B R splices s rest change realizes tag ih =>
    subst hstart
    have hcut' : Source.cut source = A ++ (M ++ (B ++ (R ++ Q))) := by simpa using hcut
    have hsp' : Spaced (A ++ (M ++ (B ++ (R ++ Q)))) := by simpa using hsp
    have hle : countIn (A ++ (M ++ B)) ≤ countIn (A ++ (M ++ (B ++ R))) := by
      simp only [countIn_append]
      omega
    have hchange := change.begins (hb.mono hle)
    obtain ⟨l₁, h₁, hapart₁⟩ := hchange.changed (Q := R ++ Q) hl' hcut' hsp' hs
      (fun ht => hT (tag ht)) (hapart.mono (by simp only [countIn_append]; omega))
    have hb₁ := begins_of_cut hcut' h₁.cut hl' h₁.read
    have hA : countIn A ≤ countIn (A ++ (M ++ B)) := by
      simp only [countIn_append]
      omega
    obtain ⟨pre, old, post, hold, hnew, hstart, hstop⟩ := realizes.effect
    have hsource : source = (A.flatMap Piece.text ++ pre) ++
        (old ++ (post ++ (B ++ (R ++ Q)).flatMap Piece.text)) := by
      conv => lhs; rw [source_eq hcut']
      simp [hold]
    have hflat : (A ++ (M' ++ (B ++ (R ++ Q)))).flatMap Piece.text = (A.flatMap Piece.text ++ pre) ++
        (s.text ++ (post ++ (B ++ (R ++ Q)).flatMap Piece.text)) := by
      simp [hnew]
    obtain ⟨hbounds, -⟩ := rest.bounds
    have hpre : Text.width (A.flatMap Piece.text ++ pre) = Reading.extent A + Text.width pre := by
      simp [Reading.extent]
    have hweave : Splice.weave source 0 (splices ++ [s]) =
        Splice.weave ((A ++ (M' ++ (B ++ (R ++ Q)))).flatMap Piece.text) 0 splices := by
      rw [hsource, hflat]
      refine Splice.weave_concat (by rw [hpre, hstart]) (by rw [hpre, hstop])
        (by cases A.flatMap Piece.text ++ pre <;> rfl) (fun t ht => ?_) fun t ht => (hbounds t ht).1
      obtain ⟨x, y, hxy, hx⟩ := Text.isBoundary_iff.mp (hbounds t ht).2.2.1
      rw [hxy]
      exact Text.isBoundary_iff.mpr ⟨x, _, List.append_assoc _ _ _, hx⟩
    obtain ⟨l₂, hR', h₂⟩ := ih ((hb.mono (Nat.le_trans hA hle)).trans hb₁) h₁.read h₁.cut
      h₁.spaced (siteAt_begins hs hb₁ (change.le hb.nested)) hapart₁
      fun ht => h₁.tagged (hT ht)
    refine ⟨l₂, ?_, ?_⟩
    · rw [hweave, hR']
      simp
    · simpa using h₁.trans h₂

end Changes

end Crosslink.FluentChain
