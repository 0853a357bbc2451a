import Crosslink.Source.Imports
import Crosslink.Proofs.Slots
import Crosslink.Proofs.Blocks

/-!
# Imports of two sources

The imports of a file are collected on a walk over its tokens. When some pieces are put into a source
that no import statement reaches into, the walk passes over them and nothing else changes.

* §1 `Comes`, where the walk comes to, and `Imported`, the statements that import classes.
* §2 What a statement lists, in two sources.
* §3 `step_lift`, one step of the walk in two sources.
* §4 `ofTokens_lift`, the imports of two sources.
-/

namespace Crosslink.Source

open TokenSequence Imports

variable {k n c i j : Nat} {block : Array Token} {a m : Text} {l l' : TokenSequence}
  {s : Collected} {t t' : Token}

/-! ## 1. The walk -/

/-- The walk over the tokens comes to the token `i`, and this has been collected. -/
inductive Comes (l : TokenSequence) : Nat → Collected → Prop
  | start : Comes l 0 {}
  | step {i : Nat} {s : Collected} {t : Token} (before : Comes l i s)
      (token : l.tokens[i]? = some t) : Comes l (s.step l i t).2 (s.step l i t).1

theorem collect_of_comes (h : Comes l i s) : collect l s i = ofTokens l := by
  induction h with
  | start => rfl
  | @step i s t before token ih =>
    rw [← ih]
    conv => rhs; rw [collect]
    split
    · rename_i hnone
      rw [token] at hnone
      cases hnone
    · rename_i u hu
      obtain rfl := Option.some.inj (token.symm.trans hu)
      rfl

/-- The walk comes to the end, where all imports have been collected. -/
theorem exists_comes (l : TokenSequence) :
    ∃ i s, Comes l i s ∧ l.tokens.size ≤ i ∧ s.imports = ofTokens l := by
  have hwalk : ∀ d i s, Comes l i s → l.tokens.size ≤ i + d →
      ∃ j s', Comes l j s' ∧ l.tokens.size ≤ j := by
    intro d
    induction d with
    | zero => exact fun i s h hi => ⟨i, s, h, hi⟩
    | succ d ih =>
      intro i s h hi
      cases ht : l.tokens[i]? with
      | none => exact ⟨i, s, h, by simpa using ht⟩
      | some t => exact ih _ _ (.step h ht) (by have := Collected.lt_step l s i t; omega)
  obtain ⟨i, s, h, hi⟩ := hwalk l.tokens.size 0 {} .start (by omega)
  refine ⟨i, s, h, hi, ?_⟩
  rw [← collect_of_comes h, collect]
  split
  · rfl
  · rename_i u hu
    have := (Array.getElem?_eq_some_iff.mp hu).1
    omega

/-- The last token of the statement that goes on at the token `i`. -/
def statementStop (l : TokenSequence) (i : Nat) : Nat :=
  (l.findKind [.semicolon] l.tokens.size i).getD l.tokens.size

/-- True where the word `use` begins a statement that imports classes: not inside the braces of a
class or a function, and with no list of a closure, no function and no constant after it. -/
def importsAt (l : TokenSequence) (s : Collected) (i : Nat) (t : Token) : Bool :=
  t.isWord "use" && s.braces.all id && !l.isKind (i + 1) .openParen
    && !(l.tokens[i + 1]?).any (·.isOneOf ["function", "const"])

/-- The token `i` begins a statement that imports classes, and the token `stop` ends it. -/
def Imported (l : TokenSequence) (i stop : Nat) : Prop :=
  ∃ s t, Comes l i s ∧ l.tokens[i]? = some t ∧ importsAt l s i t = true ∧
    stop = statementStop l (i + 1)

/-- Every statement that imports classes ends before the token after `c`, or it begins at the token
`k` or later. -/
def Apart (l : TokenSequence) (c k : Nat) : Prop := ∀ i stop, Imported l i stop → stop ≤ c ∨ k ≤ i

theorem Apart.mono (h : Apart l c k) (hj : j ≤ k) : Apart l c j :=
  fun i stop hi => (h i stop hi).imp_right fun hk => by omega

theorem le_statementStop (l : TokenSequence) (h : i ≤ l.tokens.size) : i ≤ statementStop l i := by
  unfold statementStop
  cases hf : l.findKind [.semicolon] l.tokens.size i with
  | none => exact h
  | some q => exact (le_of_findKind hf).1

theorem kindAt_of_findKind {kinds : List TokenKind} {stop : Nat}
    (h : l.findKind kinds stop i = some j) : (l.kindAt j).any kinds.contains = true := by
  fun_induction findKind l kinds stop i with
  | case1 i hi hk =>
    cases h
    exact hk
  | case2 i hi hk ih => exact ih h
  | case3 i hi => cases h

/-- A semicolon ends a statement, or the file does. -/
theorem kindAt_statementStop (l : TokenSequence) (i : Nat) :
    l.kindAt (statementStop l i) = some .semicolon ∨ l.kindAt (statementStop l i) = none := by
  unfold statementStop
  cases hf : l.findKind [.semicolon] l.tokens.size i with
  | none => exact .inr (by simp [kindAt])
  | some q =>
    have := kindAt_of_findKind hf
    cases hk : l.kindAt q with
    | none => exact .inr hk
    | some kind =>
      rw [hk] at this
      obtain rfl : kind = .semicolon := by simpa using this
      exact .inl hk

/-! ## 2. Statements of two sources -/

/-- New tokens of none of some kinds are passed over in the search for one. -/
theorem findKind_pass (h : Inserted k n block a m l l') {kinds : List TokenKind}
    (hblock : ∀ j, j < n → (l'.kindAt (k + j)).any kinds.contains = false) :
    l'.findKind kinds l'.tokens.size k = l'.findKind kinds l'.tokens.size (k + n) := by
  have hsize := h.size
  have hle := h.le_size
  have hall : ∀ d, d ≤ n → l'.findKind kinds l'.tokens.size (k + (n - d)) =
      l'.findKind kinds l'.tokens.size (k + n) := by
    intro d
    induction d with
    | zero => simp
    | succ d ih =>
      intro hd
      rw [← ih (by omega), findKind, if_pos (by omega), hblock _ (by omega)]
      simp only [Bool.false_eq_true, if_false]
      rw [show k + (n - (d + 1)) + 1 = k + (n - d) by omega]
  simpa using hall n (Nat.le_refl n)

/-- The first token of some kinds is found again when the new tokens are of none of them. -/
theorem findKind_lift (h : Inserted k n block a m l l') {kinds : List TokenKind}
    (hblock : ∀ j, j < n → (l'.kindAt (k + j)).any kinds.contains = false) (i : Nat) :
    l'.findKind kinds l'.tokens.size (lift k n i) =
      (l.findKind kinds l.tokens.size i).map (lift k n) := by
  have hsize := h.size
  have hle := h.le_size
  fun_induction findKind l kinds l.tokens.size i with
  | case1 i hi hk =>
    have hi' : lift k n i < l'.tokens.size := by
      unfold lift
      split <;> omega
    rw [findKind, if_pos hi', h.kindAt_lift, if_pos hk]
    rfl
  | case2 i hi hk ih =>
    have hi' : lift k n i < l'.tokens.size := by
      unfold lift
      split <;> omega
    rw [findKind, if_pos hi', h.kindAt_lift, if_neg hk, ← ih]
    by_cases hik : i + 1 = k
    · subst hik
      rw [lift_of_lt (Nat.lt_succ_self i), lift_of_le (Nat.le_refl _), findKind_pass h hblock]
    · rw [lift_succ hik]
  | case3 i hi =>
    have hi' : ¬ lift k n i < l'.tokens.size := by
      unfold lift
      split <;> omega
    rw [findKind, if_neg hi']
    rfl

theorem any_semicolon {j : Nat} (h : l.kindAt j ≠ some .semicolon) :
    (l.kindAt j).any [TokenKind.semicolon].contains = false := by
  cases hk : l.kindAt j with
  | none => rfl
  | some kind =>
    rw [hk] at h
    simpa using h

theorem statementStop_lift (h : Inserted k n block a m l l')
    (hblock : ∀ j, j < n → l'.kindAt (k + j) ≠ some .semicolon) (i : Nat) :
    statementStop l' (lift k n i) = lift k n (statementStop l i) := by
  unfold statementStop
  rw [findKind_lift h fun j hj => any_semicolon (hblock j hj)]
  have hsize : l'.tokens.size = lift k n l.tokens.size := by
    rw [lift_of_le h.le_size, h.size]
  cases l.findKind [.semicolon] l.tokens.size i with
  | none => exact hsize
  | some q => rfl

theorem exists_token_of_wordAt {j : Nat} (h : l'.wordAt j = l.wordAt i) (ht : l.tokens[i]? = some t) :
    ∃ t', l'.tokens[j]? = some t' ∧ t'.kind = t.kind ∧ t'.text = t.text := by
  unfold wordAt at h
  rw [ht] at h
  obtain ⟨t', ht', heq⟩ := Option.map_eq_some_iff.mp h
  obtain ⟨hkind, htext⟩ := Prod.mk.inj heq
  exact ⟨t', ht', hkind, htext⟩

theorem none_of_wordAt {j : Nat} (h : l'.wordAt j = l.wordAt i) (ht : l.tokens[i]? = none) :
    l'.tokens[j]? = none := by
  unfold wordAt at h
  rw [ht] at h
  exact Option.map_eq_none_iff.mp h

theorem isWord_eq (hkind : t'.kind = t.kind) (htext : t'.text = t.text) (word : Text) :
    t'.isWord word = t.isWord word := by
  rw [Token.isWord, Token.isWord, hkind, htext]

/-- Statements of the same words list the same imports. -/
theorem listed_congr {d stop : Nat} (lead : Text) (hs : l.kindAt stop ≠ some .name) {i : Nat}
    (hw : ∀ j, i ≤ j → j ≤ stop → l'.wordAt (j + d) = l.wordAt j) :
    listed l' lead (stop + d) (i + d) = listed l lead stop i := by
  fun_induction listed l lead stop i with
  | case1 i hi hnone =>
    rw [listed, if_pos (by omega), none_of_wordAt (hw i (by omega) (by omega)) hnone]
  | case2 i hi t ht hname full short word hword has given ih =>
    obtain ⟨t', ht', hkind, htext⟩ := exists_token_of_wordAt (hw i (by omega) (by omega)) ht
    obtain ⟨word', hword', hkind₁, htext₁⟩ :=
      exists_token_of_wordAt (hw (i + 1) (by omega) (by omega)) hword
    have hne : i + 1 ≠ stop := by
      rintro rfl
      rw [kindAt, hword] at hs
      simp only [Token.isWord, Bool.and_eq_true, decide_eq_true_eq] at has
      exact hs (congrArg some has.1)
    have hrest := ih fun j hj => hw j (by omega)
    have hlast := hw (i + 2) (by omega) (by omega)
    rw [show i + 2 + d = i + d + 2 by omega] at hlast
    rw [show i + 1 + d = i + d + 1 by omega] at hword'
    rw [listed, if_pos (by omega), ht']
    simp only [hkind, if_pos hname, hword', isWord_eq hkind₁ htext₁, if_pos has, htext]
    rw [show i + d + 3 = i + 3 + d by omega, hrest]
    cases h₂ : l.tokens[i + 2]? with
    | none => simp only [given, h₂, none_of_wordAt hlast h₂, short, full]
    | some a =>
      obtain ⟨a', ha', hkind₂, htext₂⟩ := exists_token_of_wordAt hlast h₂
      simp only [given, h₂, ha', hkind₂, htext₂, dite_eq_ite, short, full]
  | case3 i hi t ht hname full short word hword has ih =>
    obtain ⟨t', ht', hkind, htext⟩ := exists_token_of_wordAt (hw i (by omega) (by omega)) ht
    obtain ⟨word', hword', hkind₁, htext₁⟩ :=
      exists_token_of_wordAt (hw (i + 1) (by omega) (by omega)) hword
    rw [show i + 1 + d = i + d + 1 by omega] at hword'
    rw [listed, if_pos (by omega), ht']
    simp only [hkind, if_pos hname, hword', isWord_eq hkind₁ htext₁, if_neg has, htext]
    rw [show i + d + 1 = i + 1 + d by omega, ih fun j hj => hw j (by omega)]
  | case4 i hi t ht hname full short hnone ih =>
    obtain ⟨t', ht', hkind, htext⟩ := exists_token_of_wordAt (hw i (by omega) (by omega)) ht
    have hnone' := none_of_wordAt (hw (i + 1) (by omega) (by omega)) hnone
    rw [show i + 1 + d = i + d + 1 by omega] at hnone'
    rw [listed, if_pos (by omega), ht']
    simp only [hkind, if_pos hname, hnone', htext]
    rw [show i + d + 1 = i + 1 + d by omega, ih fun j hj => hw j (by omega)]
  | case5 i hi t ht hname ih =>
    obtain ⟨t', ht', hkind, -⟩ := exists_token_of_wordAt (hw i (by omega) (by omega)) ht
    rw [listed, if_pos (by omega), ht']
    simp only [hkind, if_neg hname]
    rw [show i + d + 1 = i + 1 + d by omega, ih fun j hj => hw j (by omega)]
  | case6 i hi => rw [listed, if_neg (by omega)]

theorem groupName_congr {d : Nat} (hw : ∀ j, i ≤ j → j ≤ i + 2 → l'.wordAt (j + d) = l.wordAt j) :
    groupName l' (i + d) = groupName l i := by
  have hall : ∀ j u, i ≤ j → j ≤ i + 2 → l.tokens[j]? = some u →
      ∃ u', l'.tokens[j + d]? = some u' ∧ u'.kind = u.kind ∧ u'.text = u.text :=
    fun j u hj hj' hu => exists_token_of_wordAt (hw j hj hj') hu
  have hnone : ∀ j, i ≤ j → j ≤ i + 2 → l.tokens[j]? = none → l'.tokens[j + d]? = none :=
    fun j hj hj' hu => none_of_wordAt (hw j hj hj') hu
  unfold groupName
  rw [show i + d + 1 = i + 1 + d by omega, show i + d + 2 = i + 2 + d by omega]
  cases h₀ : l.tokens[i]? with
  | none => simp [hnone i (by omega) (by omega) h₀]
  | some u =>
    obtain ⟨u', hu', hukind, hutext⟩ := hall i u (by omega) (by omega) h₀
    cases h₁ : l.tokens[i + 1]? with
    | none => simp [hu', hnone (i + 1) (by omega) (by omega) h₁]
    | some v =>
      obtain ⟨v', hv', -, hvtext⟩ := hall (i + 1) v (by omega) (by omega) h₁
      cases h₂ : l.tokens[i + 2]? with
      | none => simp [hu', hv', hnone (i + 2) (by omega) (by omega) h₂]
      | some w =>
        obtain ⟨w', hw', hwkind, -⟩ := hall (i + 2) w (by omega) (by omega) h₂
        simp only [hu', hv', hw', hukind, hutext, hvtext, hwkind]

theorem groupName_of_kind (h : l.kindAt i ≠ some .name) : groupName l i = none := by
  unfold groupName
  cases h₀ : l.tokens[i]? with
  | none => rfl
  | some u =>
    have hne : u.kind ≠ .name := fun he => h (by rw [kindAt, h₀, ← he]; rfl)
    cases l.tokens[i + 1]? with
    | none => rfl
    | some v =>
      cases l.tokens[i + 2]? with
      | none => rfl
      | some w => simp [hne]

/-- A statement that imports classes, and the same statement elsewhere, where it shares the same
name. -/
theorem classes_of_group {d stop : Nat} (hlist : l.isKind i .openParen = false)
    (hclasses : (l.tokens[i]?).any (·.isOneOf ["function", "const"]) = false)
    (hstop : statementStop l i = stop) (hstop' : statementStop l' (i + d) = stop + d)
    (hi : i ≤ stop) (hend : l.kindAt stop ≠ some .name)
    (hw : ∀ j, i ≤ j → j ≤ stop → l'.wordAt (j + d) = l.wordAt j)
    (hgroup : groupName l' (i + d) = groupName l i) :
    statement l' (i + d) = ((statement l i).1, stop + d + 1) ∧ (statement l i).2 = stop + 1 := by
  have hlist' : l'.isKind (i + d) .openParen = false := by
    rw [isKind, kindAt_eq, hw i (by omega) (by omega), ← kindAt_eq]
    exact hlist
  have hclasses' : (l'.tokens[i + d]?).any (·.isOneOf ["function", "const"]) = false := by
    cases ht : l.tokens[i]? with
    | none => rw [none_of_wordAt (hw i (by omega) (by omega)) ht]; rfl
    | some t =>
      obtain ⟨t', ht', hkind, htext⟩ := exists_token_of_wordAt (hw i (by omega) (by omega)) ht
      rw [ht] at hclasses
      rw [ht', Option.any_some, Token.isOneOf]
      simpa [Token.isOneOf, isWord_eq hkind htext] using hclasses
  have hends : (l.findKind [.semicolon] l.tokens.size i).getD l.tokens.size = stop := hstop
  have hends' : (l'.findKind [.semicolon] l'.tokens.size (i + d)).getD l'.tokens.size = stop + d :=
    hstop'
  simp only [statement, hlist, hlist', hclasses, hclasses', hends, hends', hgroup, Bool.false_eq_true,
    if_false]
  cases groupName l i with
  | none => exact ⟨Prod.ext (listed_congr [] hend hw) rfl, rfl⟩
  | some lead =>
    have hlisted := listed_congr lead hend (i := i + 3) fun j hj hj' => hw j (by omega) hj'
    rw [show i + 3 + d = i + d + 3 by omega] at hlisted
    exact ⟨Prod.ext hlisted rfl, rfl⟩

/-- A statement that imports classes, and the same statement elsewhere. -/
theorem classes_congr {d stop : Nat} (hlist : l.isKind i .openParen = false)
    (hclasses : (l.tokens[i]?).any (·.isOneOf ["function", "const"]) = false)
    (hstop : statementStop l i = stop) (hstop' : statementStop l' (i + d) = stop + d)
    (hi : i ≤ stop) (hend : l.kindAt stop ≠ some .name)
    (hw : ∀ j, i ≤ j → j ≤ stop + 1 → l'.wordAt (j + d) = l.wordAt j) :
    statement l' (i + d) = ((statement l i).1, stop + d + 1) ∧ (statement l i).2 = stop + 1 := by
  refine classes_of_group hlist hclasses hstop hstop' hi hend (fun j hj hj' => hw j hj (by omega)) ?_
  by_cases hone : i = stop
  · subst hone
    rw [groupName_of_kind hend, groupName_of_kind]
    rwa [kindAt_eq, hw i (by omega) (by omega), ← kindAt_eq]
  · exact groupName_congr fun j hj hj' => hw j hj (by omega)

/-! ## 3. One step -/

/-- What has to hold around the place of the new pieces for the walk to pass over them: it is after
the token `c`, which closes a bracket, and no statement is begun or ended there. -/
structure Passes (l l' : TokenSequence) (c k n : Nat) : Prop where
  lt : c < k
  close : l.kindAt c = some .closeParen
  left : l.kindAt (k - 1) = some .name → ∀ kind ∈ [TokenKind.name, .openBrace, .openParen],
    l.kindAt k ≠ some kind ∧ l'.kindAt k ≠ some kind
  kinds : ∀ j, j < n → ∀ kind ∈ [TokenKind.openBrace, .closeBrace, .semicolon],
    l'.kindAt (k + j) ≠ some kind
  next : ∀ j, j < n → ∀ text, l'.wordAt (k + j) = some (.name, text) →
    (Text.sameLetters text "use" ∨ Text.sameLetters text "namespace") →
    l'.kindAt (k + j + 1) = some .doubleColon ∨ l'.kindAt (k + j + 1) = some .colon

theorem word_lift (h : Inserted k n block a m l l') (i : Nat) :
    l'.wordAt (lift k n i) = l.wordAt i := by
  unfold wordAt
  rw [h.outside]
  cases l.tokens[i]? <;> rfl

/-- The statement that imports classes is found again, unless the new pieces are put into it. -/
theorem statement_lift (h : Inserted k n block a m l l') (hp : Passes l l' c k n) {i : Nat}
    (ht : l.tokens[i]? = some t) (huse : t.isWord "use" = true)
    (hq : i < k → l.isKind (i + 1) .openParen = false →
      (l.tokens[i + 1]?).any (·.isOneOf ["function", "const"]) = false →
      statementStop l (i + 1) ≤ c) :
    statement l' (lift k n i + 1) =
      ((statement l (i + 1)).1, resume k n (statement l (i + 1)).2) := by
  have hi : i < l.tokens.size := (Array.getElem?_eq_some_iff.mp ht).1
  have hname : t.kind = .name := by
    simp only [Token.isWord, Bool.and_eq_true, decide_eq_true_eq] at huse
    exact huse.1
  have hsemi : ∀ j, j < n → l'.kindAt (k + j) ≠ some .semicolon :=
    fun j hj => hp.kinds j hj _ (by simp)
  have hle := le_statementStop l (i := i + 1) hi
  have hend := kindAt_statementStop l (i + 1)
  have hik : i + 1 ≠ k := by
    rintro rfl
    -- the word stands right before the place, where neither list nor name can follow it
    have hleft := hp.left (by rw [Nat.add_sub_cancel, kindAt, ht, Option.map_some, hname])
    have hlist : l.isKind (i + 1) .openParen = false := by
      simpa [isKind] using (hleft .openParen (by simp)).1
    have hclasses : (l.tokens[i + 1]?).any (·.isOneOf ["function", "const"]) = false := by
      have hkind := (hleft .name (by simp)).1
      cases hu : l.tokens[i + 1]? with
      | none => rfl
      | some u =>
        have hne : u.kind ≠ .name := fun he => hkind (by rw [kindAt, hu, ← he]; rfl)
        simp [Token.isOneOf, Token.isWord, hne]
    have := hq (Nat.lt_succ_self i) hlist hclasses
    have := hp.lt
    omega
  rw [← lift_succ hik]
  by_cases hlist : l.isKind (i + 1) .openParen = true
  · have hlist' : l'.isKind (lift k n (i + 1)) .openParen = true := by rwa [h.isKind_lift]
    simp only [statement, if_pos hlist, if_pos hlist', h.partnerAt_lift, Prod.mk.injEq, true_and]
    cases l.partnerAt (i + 1) <;> rfl
  · have hlist₀ : l.isKind (i + 1) .openParen = false := by simpa using hlist
    by_cases hclasses : (l.tokens[i + 1]?).any (·.isOneOf ["function", "const"]) = true
    · have hlist' : ¬ l'.isKind (lift k n (i + 1)) .openParen = true := by rwa [h.isKind_lift]
      have hclasses' : (l'.tokens[lift k n (i + 1)]?).any (·.isOneOf ["function", "const"]) = true := by
        rw [h.outside]
        cases hu : l.tokens[i + 1]? with
        | none => rw [hu] at hclasses; cases hclasses
        | some u =>
          rw [hu] at hclasses
          exact hclasses
      have hstop := statementStop_lift h hsemi (i + 1)
      simp only [statementStop] at hstop
      simp only [statement, if_neg hlist, if_neg hlist', if_pos hclasses, if_pos hclasses', hstop]
      rfl
    · have hclasses₀ : (l.tokens[i + 1]?).any (·.isOneOf ["function", "const"]) = false := by
        simpa using hclasses
      have hname : l.kindAt (statementStop l (i + 1)) ≠ some .name := by
        obtain he | he := hend <;> rw [he] <;> simp
      by_cases hki : i < k
      · have hc := hq hki hlist₀ hclasses₀
        have hlt := hp.lt
        have hne : statementStop l (i + 1) ≠ c := by
          intro he
          rw [he, hp.close] at hend
          obtain he | he := hend <;> cases he
        obtain ⟨h₁, h₂⟩ := classes_congr (d := 0) hlist₀ hclasses₀ rfl
          (by
            have := statementStop_lift h hsemi (i + 1)
            rwa [lift_of_lt (by omega), lift_of_lt (by omega)] at this)
          hle hname fun j hj hj' => by
            have := word_lift h j
            rwa [lift_of_lt (by omega)] at this
        rw [lift_of_lt (by omega), h₁, h₂]
        refine Prod.ext rfl ?_
        rw [resume, Nat.add_sub_cancel, lift_of_lt (by omega)]
      · obtain ⟨h₁, h₂⟩ := classes_congr (d := n) hlist₀ hclasses₀ rfl
          (by
            have := statementStop_lift h hsemi (i + 1)
            rwa [lift_of_le (by omega), lift_of_le (by omega)] at this)
          hle hname fun j hj hj' => by
            have := word_lift h j
            rwa [lift_of_le (by omega)] at this
        rw [lift_of_le (by omega), h₁, h₂]
        refine Prod.ext rfl ?_
        rw [resume, Nat.add_sub_cancel, lift_of_le (by omega)]

/-- The name after a token, and whether a brace comes next, are the same in both sources. -/
theorem name_lift (h : Inserted k n block a m l l') (hp : Passes l l' c k n) {i : Nat}
    (ht : l.kindAt i = some .name) :
    ((l'.tokens[lift k n i + 1]?).filter (·.kind = .name)).map Token.text =
        ((l.tokens[i + 1]?).filter (·.kind = .name)).map Token.text ∧
      l'.isKind (lift k n i + 1) .openBrace = l.isKind (i + 1) .openBrace ∧
      (l.kindAt (i + 1) = some .name →
        l'.isKind (lift k n i + 2) .openBrace = l.isKind (i + 2) .openBrace) := by
  have hopen : ∀ {l₀ : TokenSequence} {j : Nat}, l₀.kindAt j ≠ some .openBrace →
      l₀.isKind j .openBrace = false := fun hne => by simpa [isKind] using hne
  by_cases hik : i + 1 = k
  · subst hik
    have hleft := hp.left (by rwa [Nat.add_sub_cancel])
    obtain ⟨hname, hname'⟩ := hleft .name (by simp)
    obtain ⟨hbrace, hbrace'⟩ := hleft .openBrace (by simp)
    have hnone : ∀ {l₀ : TokenSequence}, l₀.kindAt (i + 1) ≠ some .name →
        (l₀.tokens[i + 1]?).filter (·.kind = .name) = none := by
      intro l₀ hne
      cases hu : l₀.tokens[i + 1]? with
      | none => rfl
      | some u =>
        refine Option.filter_eq_none_iff.mpr fun v hv => ?_
        obtain rfl := Option.some.inj hv
        intro he
        exact hne (by rw [kindAt, hu, Option.map_some, of_decide_eq_true he])
    rw [lift_of_lt (Nat.lt_succ_self i), hnone hname, hnone hname', hopen hbrace, hopen hbrace']
    exact ⟨rfl, rfl, fun he => absurd he hname⟩
  · rw [← lift_succ hik, h.outside, h.isKind_lift]
    refine ⟨?_, rfl, fun hname => ?_⟩
    · cases l.tokens[i + 1]? with
      | none => rfl
      | some u =>
        simp only [Option.map_some, Option.filter_some, Token.carried]
        split <;> rfl
    · by_cases hik' : i + 1 + 1 = k
      · subst hik'
        obtain ⟨hbrace, hbrace'⟩ := hp.left (by rwa [Nat.add_sub_cancel]) .openBrace (by simp)
        rw [lift_of_lt (by omega), hopen hbrace, hopen hbrace']
      · rw [show lift k n i + 2 = lift k n i + 1 + 1 from rfl, ← lift_succ hik, ← lift_succ hik',
          h.isKind_lift]

/-- One step of the walk leads to the same place in both sources. -/
theorem step_lift (h : Inserted k n block a m l l') (hp : Passes l l' c k n) {i : Nat}
    (ht : l.tokens[i]? = some t) (hkind : t'.kind = t.kind) (htext : t'.text = t.text)
    (hq : i < k → importsAt l s i t = true → statementStop l (i + 1) ≤ c) :
    s.step l' (lift k n i) t' = ((s.step l i t).1, resume k n (s.step l i t).2) := by
  have hnext : ∀ j, resume k n (j + 1) = lift k n j + 1 := fun j => by
    rw [resume, Nat.add_sub_cancel]
  unfold Collected.step
  rw [hkind, isWord_eq hkind htext, isWord_eq hkind htext]
  by_cases hopen : t.kind = .openBrace
  · rw [if_pos hopen, if_pos hopen, hnext]
  rw [if_neg hopen, if_neg hopen]
  by_cases hclose : t.kind = .closeBrace
  · rw [if_pos hclose, if_pos hclose, hnext]
  rw [if_neg hclose, if_neg hclose]
  by_cases hns : (s.braces.isEmpty && t.isWord "namespace") = true
  · have hname : l.kindAt i = some .name := by
      simp only [Token.isWord, Bool.and_eq_true, decide_eq_true_eq] at hns
      rw [kindAt, ht, Option.map_some, hns.2.1]
    obtain ⟨hname₁, hbrace₁, hbrace₂⟩ := name_lift h hp hname
    rw [if_pos hns, if_pos hns]
    have hsome : ((l'.tokens[lift k n i + 1]?).filter (·.kind = .name)).isSome =
        ((l.tokens[i + 1]?).filter (·.kind = .name)).isSome := by
      rw [← Option.isSome_map (f := Token.text), hname₁, Option.isSome_map]
    simp only [hname₁, hsome]
    -- neither a name nor a brace stands at the place when a name stands before it
    have hapart : ∀ j kind, l.kindAt j = some .name → l.kindAt (j + 1) = some kind →
        kind ∈ [TokenKind.name, .openBrace] → lift k n (j + 1) = lift k n j + 1 := by
      intro j kind hj hkind hmem
      refine lift_succ ?_
      rintro rfl
      refine (hp.left (by rwa [Nat.add_sub_cancel]) kind ?_).1 hkind
      simp only [List.mem_cons, List.not_mem_nil, or_false] at hmem ⊢
      tauto
    by_cases hnamed : ((l.tokens[i + 1]?).filter (·.kind = .name)).isSome = true
    · obtain ⟨u, hu⟩ := Option.isSome_iff_exists.mp hnamed
      obtain ⟨hu, huname⟩ := Option.filter_eq_some_iff.mp hu
      have hat : l.kindAt (i + 1) = some .name := by
        rw [kindAt, hu, Option.map_some, of_decide_eq_true huname]
      have hlift := hapart i _ hname hat (by simp)
      simp only [if_pos hnamed, hbrace₂ hat]
      split
      · rename_i hbraced
        have hlift' := hapart (i + 1) _ hat (of_decide_eq_true hbraced) (by simp)
        rw [hnext, show i + 2 = i + 1 + 1 from rfl, hlift', hlift]
      · rw [show i + 2 = i + 1 + 1 from rfl, hnext, hlift]
    · simp only [if_neg hnamed, hbrace₁]
      split
      · rename_i hbraced
        rw [hnext, hapart i _ hname (of_decide_eq_true hbraced) (by simp)]
      · rw [hnext]
  rw [if_neg hns, if_neg hns]
  by_cases huse : (s.braces.all id && t.isWord "use") = true
  · have huse' := (Bool.and_eq_true _ _).mp huse
    have hstatement := statement_lift h hp ht huse'.2 fun hi hlist hclasses =>
      hq hi (by rw [importsAt, huse'.1, huse'.2, hlist, hclasses]; rfl)
    rw [if_pos huse, if_pos huse]
    simp only [hstatement]
    refine Prod.ext rfl ?_
    have : 0 < (statement l (i + 1)).2 := by
      unfold statement
      split
      · exact Nat.succ_pos _
      · split
        · exact Nat.succ_pos _
        · split <;> exact Nat.succ_pos _
    simp only [resume]
    unfold lift
    split <;> split <;> split <;> omega
  · rw [if_neg huse, if_neg huse, hnext]

/-! ## 4. The imports of two sources -/

/-- The new tokens are passed over one by one. -/
theorem comes_block (h : Inserted k n block a m l l') (hp : Passes l l' c k n)
    (hu : ∀ j t, j < n → l'.tokens[k + j]? = some t → t.isWord "use" = true → Comes l' (k + j) s →
      s.braces.all id = false) (hs : Comes l' k s) : ∀ j, j ≤ n → Comes l' (k + j) s := by
  intro j
  induction j with
  | zero => exact fun _ => hs
  | succ j ih =>
    intro hj
    have hcomes := ih (by omega)
    have hsize := h.size
    have hle := h.le_size
    obtain ⟨t, ht⟩ : ∃ t, l'.tokens[k + j]? = some t :=
      ⟨_, Array.getElem?_eq_getElem (by omega)⟩
    have hkind : l'.kindAt (k + j) = some t.kind := by rw [kindAt, ht]; rfl
    have hkinds := hp.kinds j (by omega)
    have hopen : t.kind ≠ .openBrace := fun he => hkinds .openBrace (by simp) (by rw [hkind, he])
    have hclose : t.kind ≠ .closeBrace := fun he => hkinds .closeBrace (by simp) (by rw [hkind, he])
    have hstep : s.step l' (k + j) t = (s, k + j + 1) := by
      unfold Collected.step
      rw [if_neg hopen, if_neg hclose]
      by_cases hns : (s.braces.isEmpty && t.isWord "namespace") = true
      · rw [if_pos hns]
        simp only [Token.isWord, Bool.and_eq_true, decide_eq_true_eq] at hns
        have hnext := hp.next j (by omega) t.text (by rw [wordAt, ht, ← hns.2.1]; rfl) (.inr hns.2.2)
        have hname : (l'.tokens[k + j + 1]?).filter (·.kind = .name) = none := by
          cases hv : l'.tokens[k + j + 1]? with
          | none => rfl
          | some v =>
            have hne : v.kind ≠ .name := by
              rw [kindAt, hv] at hnext
              obtain he | he := hnext <;> simp only [Option.map_some, Option.some.injEq] at he <;>
                simp [he]
            simp [Option.filter_some, hne]
        have hbrace : l'.isKind (k + j + 1) .openBrace = false := by
          rw [isKind]
          obtain he | he := hnext <;> simp [he]
        simp only [hname, Option.isSome_none, Bool.false_eq_true, if_false, hbrace, Option.map_none]
        rfl
      · rw [if_neg hns]
        by_cases huse : (s.braces.all id && t.isWord "use") = true
        · obtain ⟨hall, hword⟩ := (Bool.and_eq_true _ _).mp huse
          have := hu j t (by omega) ht hword hcomes
          rw [hall] at this
          cases this
        · rw [if_neg huse]
    have := Comes.step hcomes ht
    rwa [hstep] at this

/-- What comes after the word `use` before the place is the same in both sources. -/
theorem statement_head_lift (h : Inserted k n block a m l l') (hp : Passes l l' c k n) (hi : i < k)
    (hname : l.kindAt i = some .name) :
    l'.isKind (i + 1) .openParen = l.isKind (i + 1) .openParen ∧
      (l'.tokens[i + 1]?).any (·.isOneOf ["function", "const"]) =
        (l.tokens[i + 1]?).any (·.isOneOf ["function", "const"]) ∧
      statementStop l' (i + 1) = lift k n (statementStop l (i + 1)) := by
  have hsemi : ∀ j, j < n → l'.kindAt (k + j) ≠ some .semicolon :=
    fun j hj => hp.kinds j hj _ (by simp)
  have hstop := statementStop_lift h hsemi (i + 1)
  by_cases hik : i + 1 = k
  · subst hik
    have hleft := hp.left (by rwa [Nat.add_sub_cancel])
    obtain ⟨hparen, hparen'⟩ := hleft .openParen (by simp)
    obtain ⟨hno, hno'⟩ := hleft .name (by simp)
    have hnone : ∀ {l₀ : TokenSequence}, l₀.kindAt (i + 1) ≠ some .name →
        (l₀.tokens[i + 1]?).any (·.isOneOf ["function", "const"]) = false := by
      intro l₀ hne
      cases hu : l₀.tokens[i + 1]? with
      | none => rfl
      | some u =>
        have hne' : u.kind ≠ .name := fun he => hne (by rw [kindAt, hu, ← he]; rfl)
        simp [Token.isOneOf, Token.isWord, hne']
    refine ⟨?_, by rw [hnone hno, hnone hno'], ?_⟩
    · rw [isKind, isKind, decide_eq_false hparen, decide_eq_false hparen']
    · -- the new tokens hold no semicolon
      rw [← hstop, lift_of_le (Nat.le_refl _), statementStop, statementStop,
        findKind_pass h fun j hj => any_semicolon (hsemi j hj)]
  · have hkind := h.isKind_lift (i + 1) .openParen
    have htoken := h.outside (i + 1)
    rw [lift_of_lt (by omega)] at hkind htoken hstop
    refine ⟨hkind, ?_, hstop⟩
    rw [htoken]
    cases l.tokens[i + 1]? <;> rfl

/-- Whether an import begins at a token before the place is the same in both sources, and so is
where it ends. -/
theorem importsAt_lift (h : Inserted k n block a m l l') (hp : Passes l l' c k n) (hi : i < k)
    (ht : l.tokens[i]? = some t) (hkind : t'.kind = t.kind) (htext : t'.text = t.text) :
    importsAt l' s i t' = importsAt l s i t ∧
      (importsAt l s i t = true → statementStop l' (i + 1) = lift k n (statementStop l (i + 1))) := by
  have hword := isWord_eq hkind htext "use"
  by_cases huse : t.isWord "use" = true
  · have hname : l.kindAt i = some .name := by
      simp only [Token.isWord, Bool.and_eq_true, decide_eq_true_eq] at huse
      rw [kindAt, ht, Option.map_some, huse.1]
    obtain ⟨hparen, hclasses, hstop⟩ := statement_head_lift h hp hi hname
    exact ⟨by rw [importsAt, importsAt, hword, hparen, hclasses], fun _ => hstop⟩
  · have huse₀ : t.isWord "use" = false := eq_false_of_ne_true huse
    refine ⟨by rw [importsAt, importsAt, hword, huse₀]; rfl, fun he => ?_⟩
    rw [importsAt, huse₀] at he
    cases he

theorem exists_token_lift (h : Inserted k n block a m l l') {i : Nat} (ht : l.tokens[i]? = some t) :
    ∃ t', l'.tokens[lift k n i]? = some t' ∧ t'.kind = t.kind ∧ t'.text = t.text :=
  exists_token_of_wordAt (word_lift h i) ht

/-- The walk over the shorter source, and that over the longer one. -/
theorem comes_lift (h : Inserted k n block a m l l') (hp : Passes l l' c k n)
    (hq : ∀ i s t, i < k → Comes l i s → Comes l' i s → l.tokens[i]? = some t →
      importsAt l s i t = true → statementStop l (i + 1) ≤ c)
    (hu : ∀ s j t, Comes l k s → j < n → l'.tokens[k + j]? = some t → t.isWord "use" = true →
      Comes l' (k + j) s → s.braces.all id = false) (hs : Comes l i s) :
    (i ≤ k → Comes l' i s) ∧ (k ≤ i → Comes l' (i + n) s) := by
  -- past the place the walk goes on after the new tokens
  have hplace : ∀ {i s}, Comes l i s → 0 < i → Comes l' (resume k n i) s →
      (i ≤ k → Comes l' i s) ∧ (k ≤ i → Comes l' (i + n) s) := by
    intro i s hi hpos hs
    obtain hlt | rfl | hgt := Nat.lt_trichotomy i k
    · rw [resume_of_ne hpos (by omega), lift_of_lt hlt] at hs
      exact ⟨fun _ => hs, fun hk => by omega⟩
    · rw [resume_self hpos] at hs
      exact ⟨fun _ => hs, fun _ => comes_block h hp (fun j t => hu s j t hi) hs n (Nat.le_refl n)⟩
    · rw [resume_of_ne hpos (by omega), lift_of_le (by omega)] at hs
      exact ⟨fun hk => by omega, fun _ => hs⟩
  induction hs with
  | start => exact ⟨fun _ => .start, fun hk => by have := hp.lt; omega⟩
  | @step i s t before token ih =>
    obtain ⟨t', ht', hkind, htext⟩ := exists_token_lift h token
    have hbefore : Comes l' (lift k n i) s := by
      unfold lift
      split
      · exact ih.1 (by omega)
      · exact ih.2 (by omega)
    have hstep := step_lift h hp token hkind htext (s := s) fun hi himports => by
      refine hq i s t hi before ?_ token himports
      rwa [lift_of_lt hi] at hbefore
    have hnext := Comes.step hbefore ht'
    rw [hstep] at hnext
    exact hplace (.step before token) (by have := Collected.lt_step l s i t; omega) hnext

/-- Up to the place the walk over the longer source is that over the shorter one. -/
theorem comes_of_lift (h : Inserted k n block a m l l') (hp : Passes l l' c k n)
    (hq : Apart l c k) (hs : Comes l' i s) (hi : i ≤ k) : Comes l i s := by
  induction hs with
  | start => exact .start
  | @step i s t' before token ih =>
    have hlt' := Collected.lt_step l' s i t'
    have hik : i < k := by omega
    have hbefore := ih (by omega)
    obtain ⟨t, ht⟩ : ∃ t, l.tokens[i]? = some t :=
      ⟨_, Array.getElem?_eq_getElem (by have := h.le_size; omega)⟩
    obtain ⟨u, hu, hkind, htext⟩ := exists_token_lift h ht
    rw [lift_of_lt hik] at hu
    obtain rfl := Option.some.inj (token.symm.trans hu)
    have hstep := step_lift h hp ht hkind htext (s := s) fun _ himports =>
      (hq i _ ⟨s, t, hbefore, ht, himports, rfl⟩).resolve_right (by omega)
    rw [lift_of_lt hik] at hstep
    rw [hstep] at hi ⊢
    have hlt := Collected.lt_step l s i t
    have hnext := Comes.step hbefore ht
    simp only at hi ⊢
    by_cases hk : (s.step l i t).2 ≤ k
    · by_cases he : (s.step l i t).2 = k
      · rw [he, resume_self (by omega)]
        rwa [he] at hnext
      · rwa [resume_of_ne (by omega) he, lift_of_lt (by omega)]
    · rw [resume_of_ne (by omega) (by omega), lift_of_le (by omega)] at hi
      omega

/-- No import begins where the walk comes to the token `k`: it stands in the braces of a class or a
function. -/
def Sheltered (l : TokenSequence) (k : Nat) : Prop :=
  ∀ s, Comes l k s → s.braces.all id = false

theorem ofTokens_eq_of_comes (h : Inserted k n block a m l l')
    (hall : ∀ i s, Comes l i s → k ≤ i → Comes l' (i + n) s) : ofTokens l' = ofTokens l := by
  obtain ⟨i, s, hs, hi, himports⟩ := exists_comes l
  have hs' := hall i s hs (by have := h.le_size; omega)
  rw [← himports, ← collect_of_comes hs', collect]
  have hsize := h.size
  split
  · rfl
  · rename_i u hu
    have := (Array.getElem?_eq_some_iff.mp hu).1
    omega

/-- When pieces are put into a source, its imports stay the same. -/
theorem ofTokens_with (h : Inserted k n block a m l l') (hp : Passes l l' c k n) (hq : Apart l c k)
    (hu : ∀ j text, j < n → l'.wordAt (k + j) = some (.name, text) →
      Text.sameLetters text "use" = true → Sheltered l k) :
    ofTokens l' = ofTokens l ∧ Apart l' c k ∧ (Sheltered l k → Sheltered l' k) := by
  have hlift : ∀ {i s}, Comes l i s → (i ≤ k → Comes l' i s) ∧ (k ≤ i → Comes l' (i + n) s) := by
    intro i s hs
    refine comes_lift h hp (fun i s t hi hs _ ht himports => ?_) (fun s j t hs hj ht huse _ => ?_) hs
    · exact (hq i _ ⟨s, t, hs, ht, himports, rfl⟩).resolve_right (by omega)
    · simp only [Token.isWord, Bool.and_eq_true, decide_eq_true_eq] at huse
      exact hu j t.text hj (by rw [wordAt, ht, ← huse.1]; rfl) huse.2 s hs
  refine ⟨ofTokens_eq_of_comes h fun i s hs => (hlift hs).2, ?_, fun hshelter s hs => ?_⟩
  · rintro i stop ⟨s, t', hs, ht', himports, rfl⟩
    by_cases hi : i < k
    · obtain ⟨t, ht⟩ : ∃ t, l.tokens[i]? = some t :=
        ⟨_, Array.getElem?_eq_getElem (by have := h.le_size; omega)⟩
      obtain ⟨u, hu', hkind, htext⟩ := exists_token_lift h ht
      rw [lift_of_lt hi] at hu'
      obtain rfl := Option.some.inj (ht'.symm.trans hu')
      obtain ⟨hsame, hstop⟩ := importsAt_lift (s := s) h hp hi ht hkind htext
      rw [hsame] at himports
      have hc := (hq i _ ⟨s, t, comes_of_lift h hp hq hs (by omega), ht, himports, rfl⟩).resolve_right
        (by omega)
      have hlt := hp.lt
      rw [hstop himports, lift_of_lt (by omega)]
      exact .inl hc
    · exact .inr (by omega)
  · exact hshelter s (comes_of_lift h hp hq hs (Nat.le_refl k))

/-- When pieces are taken out of a source, its imports stay the same. -/
theorem ofTokens_without (h : Inserted k n block a m l l') (hp : Passes l l' c k n)
    (hq : Apart l' c (k + n)) :
    ofTokens l' = ofTokens l ∧ Apart l c k ∧
      ((∃ j text, j < n ∧ l'.wordAt (k + j) = some (.name, text) ∧
        Text.sameLetters text "use" = true) → Sheltered l k) := by
  have hlt := hp.lt
  have hsize := h.size
  have hle := h.le_size
  have hbefore : ∀ i s t, i < k → Comes l' i s → l.tokens[i]? = some t →
      importsAt l s i t = true → statementStop l (i + 1) ≤ c := by
    intro i s t hi hs ht himports
    obtain ⟨t', ht', hkind, htext⟩ := exists_token_lift h ht
    rw [lift_of_lt hi] at ht'
    obtain ⟨hsame, hstop⟩ := importsAt_lift (s := s) h hp hi ht hkind htext
    have hc := (hq i _ ⟨s, t', hs, ht', hsame.trans himports, rfl⟩).resolve_right (by omega)
    rw [hstop himports] at hc
    unfold lift at hc
    split at hc <;> omega
  have hinside : ∀ s j t, j < n → l'.tokens[k + j]? = some t → t.isWord "use" = true →
      Comes l' (k + j) s → s.braces.all id = false := by
    intro s j t hj ht huse hs
    refine eq_false_of_ne_true fun hall => ?_
    have hword := huse
    simp only [Token.isWord, Bool.and_eq_true, decide_eq_true_eq] at hword
    have hnext := hp.next j hj t.text (by rw [wordAt, ht, ← hword.1]; rfl) (.inl hword.2)
    have hparen : l'.isKind (k + j + 1) .openParen = false := by
      rw [isKind]
      obtain he | he := hnext <;> simp [he]
    have hclasses : (l'.tokens[k + j + 1]?).any (·.isOneOf ["function", "const"]) = false := by
      cases hv : l'.tokens[k + j + 1]? with
      | none => rfl
      | some v =>
        have hne : v.kind ≠ .name := by
          rw [kindAt, hv] at hnext
          obtain he | he := hnext <;> simp only [Option.map_some, Option.some.injEq] at he <;>
            simp [he]
        simp [Token.isOneOf, Token.isWord, hne]
    have hstop := le_statementStop l' (i := k + j + 1) (by omega)
    have := hq (k + j) _ ⟨s, t, hs, ht, by rw [importsAt, huse, hall, hparen, hclasses]; rfl, rfl⟩
    omega
  have hlift : ∀ {i s}, Comes l i s → (i ≤ k → Comes l' i s) ∧ (k ≤ i → Comes l' (i + n) s) :=
    fun hs => comes_lift h hp (fun i s t hi _ hs' ht himports => hbefore i s t hi hs' ht himports)
      (fun s j t _ => hinside s j t) hs
  refine ⟨ofTokens_eq_of_comes h fun i s hs => (hlift hs).2, ?_, ?_⟩
  · rintro i stop ⟨s, t, hs, ht, himports, rfl⟩
    by_cases hi : i < k
    · exact .inl (hbefore i s t hi ((hlift hs).1 (by omega)) ht himports)
    · exact .inr (by omega)
  · rintro ⟨j, text, hj, hword, huse⟩ s hs
    have hs' := comes_block h hp (fun j t => hinside s j t) ((hlift hs).1 (Nat.le_refl k)) j
      (by omega)
    obtain ⟨t, ht, heq⟩ := Option.map_eq_some_iff.mp hword
    obtain ⟨hkind, rfl⟩ := Prod.mk.inj heq
    exact hinside s j t hj ht (by rw [Token.isWord, hkind, huse]; rfl) hs'

end Crosslink.Source
