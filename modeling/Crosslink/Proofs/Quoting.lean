import Crosslink.Production.Editor
import Crosslink.Proofs.Operands

/-!
# Quoted texts that are read back

A text that is written in single quotes has a backslash before every quote in it. Not all of it is
read back: one that ends with a backslash takes the closing quote along. But an argument that is
written so and read at all is one quoted text. Had it ended at an earlier quote, the last quote
would have to close another text, and no operand begins with a quote after a backslash.

* §1 `Guarded`, the texts in which only the last quote has no backslash before it.
* §2 `readSingle_of_parse`, a written text that is read.
-/

namespace Crosslink.Source

namespace Expression

/-! ## §1 Guarded quotes -/

/-- The text ends with a quote, and every quote before has a backslash before it. The character
`before` stands before the text. -/
def Guarded : Char → Text → Prop
  | _, [] => False
  | _, [c] => c = '\''
  | before, c :: d :: cs => (c = '\'' → before = '\\') ∧ Guarded c (d :: cs)

variable {before c : Char} {text rest u v w : Text}

theorem Guarded.ne_nil (h : Guarded before text) : text ≠ [] := by
  rintro rfl
  exact h

theorem Guarded.tail (h : Guarded before (c :: w)) (hw : w ≠ []) :
    (c = '\'' → before = '\\') ∧ Guarded c w := by
  obtain ⟨d, w, rfl⟩ := List.exists_cons_of_ne_nil hw
  exact h

/-- What is left of a guarded text is one, after the character that stands before it. -/
theorem Guarded.suffix (h : Guarded before (u ++ v)) (hv : v ≠ []) :
    ∃ b ∈ (before :: u).getLast?, Guarded b v := by
  induction u generalizing before with
  | nil => exact ⟨before, rfl, h⟩
  | cons c u ih =>
    rw [List.getLast?_cons_cons]
    exact ih (h.tail (by simp [hv])).2

theorem Guarded.getLast (h : Guarded before text) : text.getLast? = some '\'' := by
  induction text generalizing before with
  | nil => exact h.elim
  | cons c text ih =>
    cases text with
    | nil => exact congrArg some h
    | cons d text => rw [List.getLast?_cons_cons, ih h.2]

/-- A guarded text begins with a quote after a backslash only, unless it is that quote. -/
theorem Guarded.of_quote (h : Guarded before ('\'' :: w)) (hb : before ≠ '\\') : w = [] := by
  cases w with
  | nil => rfl
  | cons d w => exact absurd (h.1 rfl) hb

/-- A text with backslashes put before its quotes, and a quote after it. -/
theorem guarded_replace (before : Char) (t : Text) :
    Guarded before (Text.replace '\'' "\\'" t ++ "'") := by
  induction t generalizing before with
  | nil => exact rfl
  | cons c t ih =>
    have hreplace : Text.replace '\'' "\\'" (c :: t) =
        (if c = '\'' then "\\'".toList else [c]) ++ Text.replace '\'' "\\'" t := rfl
    obtain ⟨d, w, hw⟩ := List.exists_cons_of_ne_nil (ih c).ne_nil
    rw [hreplace, List.append_assoc]
    split
    · rename_i hc
      subst hc
      have hrest := ih '\''
      rw [hw] at hrest ⊢
      exact ⟨fun h => absurd h (by decide), fun _ => rfl, hrest⟩
    · rename_i hc
      have hrest := ih c
      rw [hw] at hrest ⊢
      exact ⟨fun h => absurd h hc, hrest⟩

/-! ## §2 Reading on -/

theorem getLast_of_suffix (h : v <:+ text) (hv : v ≠ []) : text.getLast? = v.getLast? := by
  obtain ⟨u, rfl⟩ := h
  rw [List.getLast?_append, List.getLast?_eq_some_getLast hv]
  rfl

/-- A text that ends with a quote has more than blanks. -/
theorem skipGap_ne_nil (h : text.getLast? = some '\'') : skipGap text ≠ [] := by
  intro hnil
  obtain ⟨g, hg, hgap⟩ := exists_gap text
  rw [hnil, List.append_nil] at hg
  have := hgap '\'' (hg ▸ List.mem_of_getLast? h)
  revert this
  decide

theorem getLast_of_readDouble (h : readDouble text = some (w, [])) : text.getLast? = some '"' := by
  fun_induction readDouble text generalizing w with
  | case1 => cases h
  | case2 => cases h
  | case3 c cs ih =>
    obtain ⟨⟨t, r⟩, hread, hr⟩ := Option.map_eq_some_iff.mp h
    obtain ⟨-, rfl⟩ := Prod.mk.inj hr
    have hlast := ih hread
    cases cs with
    | nil => cases hlast
    | cons d cs => rwa [List.getLast?_cons_cons, List.getLast?_cons_cons]
  | case4 cs =>
    obtain ⟨-, rfl⟩ := Prod.mk.inj (Option.some.inj h)
    rfl
  | case5 => cases h
  | case6 c cs hne hne' hne'' hne''' ih =>
    obtain ⟨⟨t, r⟩, hread, hr⟩ := Option.map_eq_some_iff.mp h
    obtain ⟨-, rfl⟩ := Prod.mk.inj hr
    have hlast := ih hread
    cases cs with
    | nil => cases hlast
    | cons d cs => rwa [List.getLast?_cons_cons]

theorem suffix_of_readIdent (h : readIdent text = some (v, rest)) :
    rest <:+ text ∧ ∃ c, v.getLast? = some c ∧ isIdentChar c = true := by
  unfold readIdent at h
  have hall := List.all_takeWhile (p := isIdentChar) (l := text)
  split at h
  · cases h
  · rename_i c cs hident
    split at h
    · cases h
    · obtain ⟨rfl, rfl⟩ := Prod.mk.inj (Option.some.inj h)
      rw [hident] at hall
      refine ⟨List.dropWhile_suffix _, _, List.getLast?_eq_some_getLast (List.cons_ne_nil c cs), ?_⟩
      exact List.all_eq_true.mp hall _ (List.getLast_mem _)

/-- What reads a class constant to the end of a text ends with a character of an identifier. -/
theorem getLast_of_readConstant (h : readConstant text = some (w, rest)) :
    rest <:+ text ∧ (rest = [] → ∃ c, text.getLast? = some c ∧ isIdentChar c = true) := by
  unfold readConstant at h
  split at h
  rename_i lead body hpair
  have hbody : body <:+ text := by
    split at hpair
    · obtain ⟨-, rfl⟩ := Prod.mk.inj hpair
      exact List.suffix_cons _ _
    · obtain ⟨-, rfl⟩ := Prod.mk.inj hpair
      exact List.suffix_refl _
  obtain ⟨⟨first, text₁⟩, hfirst, h⟩ := Option.bind_eq_some_iff.mp h
  obtain ⟨more, hmore⟩ : ∃ more, readSegments text₁ = (more, (readSegments text₁).2) := ⟨_, rfl⟩
  have hsegments : (readSegments text₁).2 <:+ text₁ := ⟨more, (readSegments_eq hmore).1.symm⟩
  dsimp only at h
  split at h
  · rename_i text₂ hcolons
    obtain ⟨⟨word, text₃⟩, hword, h⟩ := Option.bind_eq_some_iff.mp h
    dsimp only at h
    split at h
    · obtain ⟨-, rfl⟩ := Prod.mk.inj (Option.some.inj h)
      have hcolon : text₂ <:+ skipGap (readSegments text₁).2 := ⟨[':', ':'], hcolons.symm⟩
      have hleft : skipGap text₂ <:+ (readSegments text₁).2 :=
        ((List.dropWhile_suffix _).trans hcolon).trans (List.dropWhile_suffix _)
      have hgap : skipGap text₂ <:+ text :=
        ((hleft.trans hsegments).trans (suffix_of_readIdent hfirst).1).trans hbody
      obtain ⟨hsuffix, c, hc, hident⟩ := suffix_of_readIdent hword
      refine ⟨hsuffix.trans hgap, fun hnil => ⟨c, ?_, hident⟩⟩
      obtain rfl : skipGap text₂ = word := by
        have := (readIdent_eq_some hword).1
        rwa [hnil, List.append_nil] at this
      rw [getLast_of_suffix hgap (by rintro hnil; rw [hnil] at hc; cases hc), hc]
    · cases h
  · cases h

/-- After a character that is no backslash an operand ends before the last quote. -/
theorem suffix_of_readAtom {atom : Atom} (h : readAtom text = some (atom, rest))
    (hg : Guarded before text) (hb : before ≠ '\\') : rest <:+ text ∧ rest ≠ [] := by
  have hlast := hg.getLast
  unfold readAtom at h
  split at h
  · rename_i cs
    obtain ⟨⟨t, r⟩, hread, -⟩ := Option.map_eq_some_iff.mp h
    rw [hg.of_quote hb] at hread
    cases hread
  · rename_i cs
    obtain ⟨⟨t, r⟩, hread, hr⟩ := Option.map_eq_some_iff.mp h
    obtain ⟨-, rfl⟩ := Prod.mk.inj hr
    obtain ⟨q, hq, -⟩ := readDouble_eq_some hread
    refine ⟨⟨'"' :: q, by rw [hq]; rfl⟩, ?_⟩
    rintro rfl
    have hquote := getLast_of_readDouble hread
    cases cs with
    | nil => cases hquote
    | cons d cs =>
      rw [List.getLast?_cons_cons, hquote] at hlast
      exact absurd hlast (by decide)
  · obtain ⟨⟨t, r⟩, hread, hr⟩ := Option.map_eq_some_iff.mp h
    obtain ⟨-, rfl⟩ := Prod.mk.inj hr
    obtain ⟨hsuffix, hident⟩ := getLast_of_readConstant hread
    refine ⟨hsuffix, fun hnil => ?_⟩
    obtain ⟨c, hc, hchar⟩ := hident hnil
    obtain rfl := Option.some.inj (hc.symm.trans hlast)
    exact absurd (isNameChar_of_isIdentChar hchar) (by decide)

/-- What an operand leaves of a text that ends with a quote, and the operands after it, too. -/
theorem getLast_of_rest {fuel : Nat} (atom : Atom) {atoms : List Atom} {left : Text}
    (hg : Guarded before left)
    (ih : ∀ {before text atoms rest}, Guarded before text → before ≠ '\\' →
      readAtoms fuel text = some (atoms, rest) → rest.getLast? = some '\'')
    (h : (match skipGap left with
      | '.' :: cs =>
        match readAtoms fuel (skipGap cs) with
        | some (atoms, rest') => some (atom :: atoms, rest')
        | none => some ([atom], left)
      | _ => some ([atom], left)) = some (atoms, rest)) : rest.getLast? = some '\'' := by
  have hlast := hg.getLast
  split at h
  · rename_i cs hdot
    obtain ⟨g, hleft, hgap⟩ := exists_gap left
    obtain ⟨g', hcs, hgap'⟩ := exists_gap cs
    split at h
    · rename_i atoms' rest' hrest
      obtain ⟨-, rfl⟩ := Prod.mk.inj (Option.some.inj h)
      -- before the operand after the dot stands the dot or a blank
      have hdots : left = g ++ '.' :: cs := by rw [← hdot]; exact hleft
      have hsplit : left = (g ++ '.' :: g') ++ skipGap cs := by
        rw [hdots, List.append_assoc, List.cons_append, ← hcs]
      have hcsne : cs ≠ [] := by
        rintro rfl
        rw [hdots, List.getLast?_concat] at hlast
        exact absurd hlast (by decide)
      have hcslast : cs.getLast? = some '\'' :=
        (getLast_of_suffix ⟨g ++ ['.'], by rw [hdots]; simp⟩ hcsne).symm.trans hlast
      obtain ⟨b, hb, hguarded⟩ := (hsplit ▸ hg).suffix (skipGap_ne_nil hcslast)
      refine ih hguarded ?_ hrest
      rintro rfl
      have hmem : '\\' ∈ '.' :: g' := by
        have hsuffix : '.' :: g' <:+ before :: (g ++ '.' :: g') := ⟨before :: g, rfl⟩
        rw [getLast_of_suffix hsuffix (List.cons_ne_nil _ _)] at hb
        exact List.mem_of_getLast? hb
      obtain h | hmem := List.mem_cons.mp hmem
      · exact absurd h (by decide)
      · exact absurd (hgap' _ hmem) (by decide)
    · obtain ⟨-, rfl⟩ := Prod.mk.inj (Option.some.inj h)
      exact hlast
  · obtain ⟨-, rfl⟩ := Prod.mk.inj (Option.some.inj h)
    exact hlast

theorem getLast_of_readAtoms {fuel : Nat} {atoms : List Atom} (hg : Guarded before text)
    (hb : before ≠ '\\') (h : readAtoms fuel text = some (atoms, rest)) :
    rest.getLast? = some '\'' := by
  induction fuel generalizing before text atoms rest with
  | zero => cases h
  | succ fuel ih =>
    rw [readAtoms] at h
    obtain ⟨⟨atom, left⟩, hatom, hrest⟩ := Option.bind_eq_some_iff.mp h
    obtain ⟨⟨u, rfl⟩, hne⟩ := suffix_of_readAtom hatom hg hb
    obtain ⟨b, -, hleft⟩ := hg.suffix hne
    exact getLast_of_rest _ hleft ih hrest

/-- A text that is written in quotes and read is one quoted text. -/
theorem readSingle_of_parse {t : Text} {e : Expression}
    (h : parse ('\'' :: (Text.replace '\'' "\\'" t ++ "'")) = .ok e) :
    ∃ v, readSingle (Text.replace '\'' "\\'" t ++ "'") = some (v, []) := by
  have hg := guarded_replace '\'' t
  generalize Text.replace '\'' "\\'" t ++ "'" = text at h hg ⊢
  have hlabel : readLabel ('\'' :: text) = none := by
    have hident : isIdentChar '\'' = false :=
      Bool.eq_false_iff.mpr fun hc => absurd (isNameChar_of_isIdentChar hc) (by decide)
    simp [readLabel, readIdent, hident]
  have hstart : skipGap ('\'' :: text) = '\'' :: text := rfl
  simp only [parse, hstart, hlabel] at h
  cases hread : readSingle text with
  | none => simp [readAtoms, readAtom, hread] at h
  | some r =>
    obtain ⟨v, left⟩ := r
    by_cases hleft : left = []
    · exact ⟨v, by rw [hleft]⟩
    obtain ⟨q, rfl, -⟩ := readSingle_eq_some hread
    obtain ⟨b, -, hguarded⟩ := hg.suffix hleft
    split at h
    · rename_i atoms rest hatoms
      have hlast : rest.getLast? = some '\'' := by
        rw [readAtoms] at hatoms
        simp only [readAtom, hread] at hatoms
        exact getLast_of_rest (.literal v) hguarded (fun hg hb => getLast_of_readAtoms hg hb)
          hatoms
      rw [if_neg (skipGap_ne_nil hlast)] at h
      cases h
    · cases h

end Expression

end Crosslink.Source
