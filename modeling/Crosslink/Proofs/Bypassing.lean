import Crosslink.Proofs.Checked.Declarations
import Crosslink.Proofs.Crossing

/-!
# Imports of what is left of a source

When some tokens are taken out of a source that no declaration reaches into, and none of them is a brace or a
semicolon, the walk that collects imports goes by the place as it went over the tokens. What was clear of
imports is so in what is left.

* §1 `step_of_uncrossed`, a token that is passed over because nothing reaches across its end.
* §2 `le_of_step`, a step that stays before the place.
* §3 `comes_left` and `ofTokens_left`, the imports of both sources.
* §4 `uncrossed_left`, the places that nothing collected reaches across.
-/

namespace Crosslink.Source

open TokenSequence Imports

variable {k n i j : Nat} {block : Array Token} {a m source : Text} {l l' : TokenSequence}
  {s : Collected} {t t' : Token}

/-! ## §1 Tokens that are passed over -/

/-- Where a statement ends. -/
theorem statement_snd (l : TokenSequence) (i : Nat) : (statement l i).2 =
    if l.isKind i .openParen then (l.partnerAt i).getD i + 1 else statementStop l i + 1 := by
  unfold statement statementStop
  dsimp only
  split
  · rfl
  · split
    · rfl
    · split <;> rfl

/-- A token that is no brace is passed over when nothing collected reaches across its end. -/
theorem step_of_uncrossed (hn : l.Nested) (hs : Comes l i s) (ht : l.tokens[i]? = some t)
    (hbraces : t.kind ≠ .openBrace ∧ t.kind ≠ .closeBrace) (huncrossed : Uncrossed l (i + 1)) :
    s.step l i t = (s, i + 1) := by
  have hle : (s.step l i t).2 ≤ i + 1 := by
    by_contra hlt
    have := (huncrossed i s t hs ht (Nat.lt_succ_self i) (by omega)).2.1
    omega
  have hsize := (Array.getElem?_eq_some_iff.mp ht).1
  rw [Collected.step, if_neg hbraces.1, if_neg hbraces.2] at hle ⊢
  split at hle
  · rename_i hns
    rw [if_pos hns]
    dsimp only at hle ⊢
    cases hname : (l.tokens[i + 1]?).filter (·.kind = .name) with
    | some v =>
      rw [hname, Option.isSome_some, if_pos rfl] at hle
      split at hle <;> omega
    | none =>
      rw [hname, Option.isSome_none, if_neg Bool.false_ne_true] at hle
      rw [Option.isSome_none, if_neg Bool.false_ne_true]
      split at hle
      · omega
      · rename_i hbrace
        rw [Bool.eq_false_iff.mpr hbrace]
        rfl
  · rename_i hns
    rw [if_neg hns]
    split at hle
    · have := Checked.lt_statement hn (show i + 1 ≤ l.tokens.size by omega)
      dsimp only at hle
      omega
    · rename_i huse
      rw [if_neg huse]

/-! ## §2 Before the place -/

/-- What is left begins at the place as what is taken out did, for a name that stands right before it: with
no name and no brace. -/
def Flush (l l' : TokenSequence) (k : Nat) : Prop :=
  (∀ kind ∈ [TokenKind.name, .openBrace], l.kindAt k ≠ some kind ∧ l'.kindAt k ≠ some kind) ∨
    ∀ j, j + 1 = k → l.kindAt j ≠ some .name

theorem Flush.first (h : Flush l l' k) : (∀ kind ∈ [TokenKind.name, .openBrace], l'.kindAt k ≠ some kind) ∨
    ∀ j, j + 1 = k → l.kindAt j ≠ some .name :=
  h.imp_left fun h kind hk => (h kind hk).2

/-- A step stays before the place if it does so in the longer source. -/
theorem le_of_step (h : Inserted k n block a m l l') (hu : Unbraced l' k n) (hflush : Flush l l' k)
    (ht : l.tokens[i]? = some t) (hi : i < k) (hkind : t'.kind = t.kind) (htext : t'.text = t.text)
    (hle : (s.step l' i t').2 ≤ k) : (s.step l i t).2 ≤ k := by
  have hsize := h.le_size
  have hsize' := h.size
  unfold Collected.step at hle ⊢
  rw [hkind, isWord_eq hkind htext, isWord_eq hkind htext] at hle
  by_cases hopen : t.kind = .openBrace
  · rw [if_pos hopen]
    exact hi
  rw [if_neg hopen] at hle ⊢
  by_cases hclose : t.kind = .closeBrace
  · rw [if_pos hclose]
    exact hi
  rw [if_neg hclose] at hle ⊢
  by_cases hns : (s.braces.isEmpty && t.isWord "namespace") = true
  · rw [if_pos hns] at hle ⊢
    dsimp only at hle ⊢
    have hword : l.kindAt i = some .name := by
      simp only [Token.isWord, Bool.and_eq_true, decide_eq_true_eq] at hns
      rw [kindAt, ht, Option.map_some, hns.2.1]
    -- a name right before the place is followed by no name and no brace
    have hfirst : ∀ j, j + 1 = k → l.kindAt j = some .name → ∀ kind ∈ [TokenKind.name, .openBrace],
        l.kindAt k ≠ some kind := fun j hj hname kind hk =>
      (hflush.resolve_right (fun hnone => hnone j hj hname) kind hk).1
    by_cases hik : i + 1 = k
    · rw [hik, not_named (hfirst i hik hword .name (by simp)), Option.isSome_none, if_neg Bool.false_ne_true,
        isKind, decide_eq_false (hfirst i hik hword .openBrace (by simp)), if_neg Bool.false_ne_true]
    · have hnamed : ((l'.tokens[i + 1]?).filter (·.kind = .name)).isSome =
          ((l.tokens[i + 1]?).filter (·.kind = .name)).isSome := by
        rw [← Option.isSome_map (f := Token.text), name_congr (word_before h (by omega)), Option.isSome_map]
      rw [hnamed] at hle
      split at hle
      · rename_i hsome
        rw [if_pos hsome]
        obtain ⟨v, hv⟩ := Option.isSome_iff_exists.mp hsome
        obtain ⟨hv, hname⟩ := Option.filter_eq_some_iff.mp hv
        by_cases hlast : i + 2 = k
        · have hkindAt : l.kindAt (i + 1) = some .name := by
            rw [kindAt, hv, Option.map_some, of_decide_eq_true hname]
          rw [hlast, isKind, decide_eq_false (hfirst (i + 1) hlast hkindAt .openBrace (by simp)),
            if_neg Bool.false_ne_true]
        · split <;> omega
      · rename_i hnone
        rw [if_neg hnone]
        split <;> omega
  rw [if_neg hns] at hle ⊢
  by_cases huse : (s.braces.all id && t.isWord "use") = true
  · rw [if_pos huse] at hle ⊢
    dsimp only at hle ⊢
    have hik := Nat.lt_of_lt_of_le (Checked.lt_statement h.nested' (show i + 1 ≤ l'.tokens.size by omega))
      (Nat.le_trans (Nat.le_max_left _ _) hle)
    have hword := word_before h hik
    rw [statement_snd, isKind_congr hword] at hle
    rw [statement_snd]
    split at hle
    · rename_i hlist
      rw [if_pos hlist]
      obtain ⟨q, hq, hlt⟩ := partner_lt h.nested hlist
      have hq' := h.partnerAt_lift (i + 1)
      rw [lift_of_lt hik, hq, Option.map_some] at hq'
      rw [hq', Option.getD_some] at hle
      rw [hq, Option.getD_some]
      unfold lift at hle
      split at hle <;> omega
    · rename_i hlist
      rw [if_neg hlist]
      have hstop := statementStop_lift h hu.semicolons (i + 1)
      rw [lift_of_lt hik] at hstop
      rw [hstop] at hle
      unfold lift at hle
      split at hle <;> omega
  · rw [if_neg huse]
    exact hi

/-! ## §3 The whole walk -/

variable (huncrossed : ∀ q, k ≤ q → q ≤ k + n → Uncrossed l' q)

include huncrossed in
/-- The tokens that are taken out are passed over. -/
theorem comes_over (h : Inserted k n block a m l l') (hu : Unbraced l' k n) (hs : Comes l' k s) :
    Comes l' (k + n) s := by
  suffices hall : ∀ j, j ≤ n → Comes l' (k + j) s from hall n (Nat.le_refl n)
  intro j
  induction j with
  | zero => exact fun _ => hs
  | succ j ih =>
    intro hj
    have hsize := h.size
    have hle := h.le_size
    obtain ⟨t, ht⟩ : ∃ t, l'.tokens[k + j]? = some t := ⟨_, Array.getElem?_eq_getElem (by omega)⟩
    have hkind : l'.kindAt (k + j) = some t.kind := by rw [kindAt, ht]; rfl
    have hbraces : t.kind ≠ .openBrace ∧ t.kind ≠ .closeBrace :=
      ⟨fun he => hu j (by omega) .openBrace (by simp) (by rw [hkind, he]),
        fun he => hu j (by omega) .closeBrace (by simp) (by rw [hkind, he])⟩
    have hnext := Comes.step (ih (by omega)) ht
    rwa [step_of_uncrossed h.nested' (ih (by omega)) ht hbraces (huncrossed _ (by omega) (by omega))] at hnext

/-- A step before the place is the same in both sources, or it leads over a statement that imports no
classes, as far after the place. -/
theorem step_left (h : Inserted k n block a m l l') (hu : Unbraced l' k n) (hflush : Flush l l' k)
    (hl : tokenize source = .ok l) (hk : Uncrossed l' k) (hs : Comes l' i s)
    (ht : l.tokens[i]? = some t) (ht' : l'.tokens[i]? = some t') (hi : i < k) (hkind : t'.kind = t.kind)
    (htext : t'.text = t.text) :
    (s.step l i t).2 ≤ k ∧ s.step l' i t' = s.step l i t ∨
      k < (s.step l i t).2 ∧ s.step l' i t' = ((s.step l i t).1, (s.step l i t).2 + n) ∧
        t.isWord "use" = true ∧ i + 1 < k ∧ importsAt l s i t = false := by
  by_cases hle : (s.step l' i t').2 ≤ k
  · have hle' := le_of_step h hu hflush ht hi hkind htext hle
    exact .inl ⟨hle', step_before h hu hflush.first ht hl hi hkind htext hle'⟩
  · obtain ⟨huse, hlt, hno⟩ := hk i s t' hs ht' hi (by omega)
    have hword := isWord_eq hkind htext "use"
    have hafter := word_before h hlt
    rw [importsAt, hword, isKind_congr hafter, any_congr hafter] at hno
    have hnext : k < (s.step l i t).2 := by
      by_contra hle'
      rw [step_before h hu hflush.first ht hl hi hkind htext (by omega)] at hle
      omega
    exact .inr ⟨hnext, step_across h hu hlt hkind htext (hword.symm.trans huse) hno hnext,
      hword.symm.trans huse, hlt, hno⟩

include huncrossed in
/-- Where the walk over what is left comes to, that over the longer source does. -/
theorem comes_left (h : Inserted k n block a m l l') (hu : Unbraced l' k n) (hflush : Flush l l' k)
    (hl : tokenize source = .ok l) (hs : Comes l i s) :
    (i ≤ k → Comes l' i s) ∧ (k ≤ i → Comes l' (i + n) s) := by
  -- at the place itself the walk goes on after what is taken out
  have hplace : ∀ {i s}, i ≤ k → Comes l' i s → (i ≤ k → Comes l' i s) ∧ (k ≤ i → Comes l' (i + n) s) := by
    intro i s hi hs
    refine ⟨fun _ => hs, fun hk => ?_⟩
    obtain rfl : i = k := by omega
    exact comes_over huncrossed h hu hs
  induction hs with
  | start => exact hplace (Nat.zero_le k) .start
  | @step i s t before token ih =>
    have hlt := Collected.lt_step l s i t
    obtain ⟨t', ht', hkind, htext⟩ := exists_token_lift h token
    by_cases hi : i < k
    · rw [lift_of_lt hi] at ht'
      have hnext := Comes.step (ih.1 hi.le) ht'
      obtain ⟨hle, hsame⟩ | ⟨hlt', hacross, -⟩ := step_left h hu hflush hl
        (huncrossed k (Nat.le_refl k) (by omega)) (ih.1 hi.le) token ht' hi hkind htext
      · rw [hsame] at hnext
        exact hplace hle hnext
      · rw [hacross] at hnext
        exact ⟨fun hk => by omega, fun _ => hnext⟩
    · rw [lift_of_le (by omega)] at ht'
      have hnext := Comes.step (ih.2 (by omega)) ht'
      rw [step_after h hu (by omega) token hkind htext] at hnext
      exact ⟨fun hk => by omega, fun _ => hnext⟩

include huncrossed in
/-- What is left has the imports of the longer source. -/
theorem ofTokens_left (h : Inserted k n block a m l l') (hu : Unbraced l' k n) (hflush : Flush l l' k)
    (hl : tokenize source = .ok l) : ofTokens l' = ofTokens l :=
  ofTokens_eq_of_comes h fun _ _ hs => (comes_left huncrossed h hu hflush hl hs).2

/-! ## §4 Places -/

include huncrossed in
/-- A place that nothing reached across is such a place in what is left. -/
theorem uncrossed_left (h : Inserted k n block a m l l') (hu : Unbraced l' k n) (hflush : Flush l l' k)
    (hl : tokenize source = .ok l) (hj : Uncrossed l' (lift k n j)) : Uncrossed l j := by
  intro i s t hs ht hij hlt
  obtain ⟨t', ht', hkind, htext⟩ := exists_token_lift h ht
  have hcomes := comes_left huncrossed h hu hflush hl hs
  by_cases hi : i < k
  · rw [lift_of_lt hi] at ht'
    have hs' := hcomes.1 hi.le
    obtain ⟨hle, hsame⟩ | ⟨hlt', hacross, huse, hik, hno⟩ := step_left h hu hflush hl
      (huncrossed k (Nat.le_refl k) (by omega)) hs' ht ht' hi hkind htext
    · rw [lift_of_lt (by omega)] at hj
      obtain ⟨huse, hnext, hno⟩ := hj i s t' hs' ht' hij (by rw [hsame]; exact hlt)
      have hword := isWord_eq hkind htext "use"
      have hafter := word_before h (show i + 1 < k by omega)
      rw [importsAt, hword, isKind_congr hafter, any_congr hafter] at hno
      exact ⟨hword.symm.trans huse, hnext, hno⟩
    · refine ⟨huse, ?_, hno⟩
      by_cases hjk : j < k
      · rw [lift_of_lt hjk] at hj
        exact (hj i s t' hs' ht' hij (by rw [hacross]; dsimp only; omega)).2.1
      · omega
  · have hs' := hcomes.2 (by omega)
    rw [lift_of_le (by omega)] at ht' hj
    obtain ⟨huse, hnext, hno⟩ := hj (i + n) s t' hs' ht' (by omega)
      (by rw [step_after h hu (by omega) ht hkind htext]; dsimp only; omega)
    have hword := isWord_eq hkind htext "use"
    have hafter := word_after h (show k ≤ i + 1 by omega)
    rw [importsAt, hword, Nat.add_right_comm i n 1, isKind_congr hafter, any_congr hafter] at hno
    exact ⟨hword.symm.trans huse, by omega, hno⟩

end Crosslink.Source
