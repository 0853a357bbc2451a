import Crosslink.Proofs.Collecting
import Crosslink.Proofs.Places

/-!
# Imports around a place

New tokens that begin with a group of attributes, and of which none is a brace, a semicolon or a word
that the collection of imports goes by, leave the imports of a file alone, if they are put where
nothing that is collected goes on.

* §1 `Uncrossed`, the places that nothing collected reaches across, and `uncrossed_of_neverCrosses`;
  `ClearBetween`, the stretches into which nothing collected reaches.
* §2 What is read at a token before the place.
* §3 What is read at a token after it.
* §4 `ofTokens_uncrossed`, the imports of two sources.
-/

namespace Crosslink.Source

open TokenSequence Imports

variable {k n i j : Nat} {block : Array Token} {a m source : Text} {l l' : TokenSequence}
  {s : Collected} {t t' : Token}

/-! ## §1 Places -/

/-- No declaration of a namespace and no statement that imports classes reaches across the place
before the token `k`, and no word `use` that is read stands right before it. -/
def Uncrossed (l : TokenSequence) (k : Nat) : Prop :=
  ∀ i s t, Comes l i s → l.tokens[i]? = some t → i < k → k < (s.step l i t).2 →
    t.isWord "use" = true ∧ i + 1 < k ∧ importsAt l s i t = false

/-- Follow the walk from the token `i` on for some steps, and tell whether the place before the token
`k` is uncrossed. -/
def neverCrosses (l : TokenSequence) (k : Nat) : Nat → Collected → Nat → Bool
  | 0, _, i => k ≤ i
  | steps + 1, s, i =>
    k ≤ i || match l.tokens[i]? with
      | none => true
      | some t => ((s.step l i t).2 ≤ k || (t.isWord "use" && i + 1 < k && !importsAt l s i t)) &&
          neverCrosses l k steps (s.step l i t).1 (s.step l i t).2

theorem uncrossed_of_neverCrosses {steps : Nat} (h : neverCrosses l k steps {} 0 = true) : Uncrossed l k := by
  -- wherever the walk comes to, it is followed on from there
  have hall : ∀ i s, Comes l i s → ∃ steps, neverCrosses l k steps s i = true := by
    intro i s hs
    induction hs with
    | start => exact ⟨steps, h⟩
    | @step i s t before token ih =>
      obtain ⟨steps, hsteps⟩ := ih
      have hlt := Collected.lt_step l s i t
      cases steps with
      | zero =>
        have hk : k ≤ i := of_decide_eq_true hsteps
        exact ⟨0, decide_eq_true (by omega)⟩
      | succ steps =>
        rw [neverCrosses, token] at hsteps
        by_cases hk : k ≤ i
        · exact ⟨0, decide_eq_true (by omega)⟩
        · simp only [hk, decide_false, Bool.false_or, Bool.and_eq_true] at hsteps
          exact ⟨steps, hsteps.2⟩
  intro i s t hs ht hi hnext
  obtain ⟨steps, hsteps⟩ := hall i s hs
  cases steps with
  | zero =>
    have hk : k ≤ i := of_decide_eq_true hsteps
    omega
  | succ steps =>
    rw [neverCrosses, ht] at hsteps
    simp only [show ¬ k ≤ i by omega, show ¬ (s.step l i t).2 ≤ k by omega, decide_false, Bool.false_or,
      Bool.and_eq_true, decide_eq_true_eq, Bool.not_eq_true'] at hsteps
    exact ⟨hsteps.1.1.1, hsteps.1.1.2, hsteps.1.2⟩

/-- No declaration of a namespace and no statement that imports classes reaches into the stretch between
two offsets. -/
def ClearBetween (source : Text) (start stop : Nat) : Prop :=
  ∀ l q u, tokenize source = .ok l → l.tokens[q]? = some u → start ≤ u.span.start →
    u.span.start < stop → Uncrossed l q

theorem clearBetween_of_neverCrosses {start stop steps : Nat} (h : ((tokenize source).toOption.all fun l =>
    (List.range l.tokens.size).all fun q => (l.tokens[q]?).all fun u =>
      !(start ≤ u.span.start && u.span.start < stop) || neverCrosses l q steps {} 0) = true) :
    ClearBetween source start stop := by
  intro l q u hl hq hlow hhigh
  rw [hl] at h
  have hat := List.all_eq_true.mp h q (List.mem_range.mpr (Array.getElem?_eq_some_iff.mp hq).1)
  rw [hq] at hat
  exact uncrossed_of_neverCrosses (by simpa [hlow, hhigh] using hat)

/-- No token of a stretch is a brace or a semicolon. -/
def Unbraced (l' : TokenSequence) (k n : Nat) : Prop :=
  ∀ j, j < n → ∀ kind ∈ [TokenKind.openBrace, .closeBrace, .semicolon], l'.kindAt (k + j) ≠ some kind

theorem Unbraced.semicolons (hu : Unbraced l' k n) : ∀ j, j < n → l'.kindAt (k + j) ≠ some .semicolon :=
  fun j hj => hu j hj _ (by simp)

/-- The new tokens begin with a group of attributes, and the walk that collects imports passes over
all of them. -/
structure Unread (l' : TokenSequence) (k n : Nat) : Prop where
  first : l'.kindAt k = some .attrOpen
  kinds : Unbraced l' k n
  words : ∀ j, j < n → ∀ t, l'.tokens[k + j]? = some t →
    t.isWord "use" = false ∧ t.isWord "namespace" = false

theorem Unread.head (hu : Unread l' k n) : ∀ kind ∈ [TokenKind.name, .openBrace], l'.kindAt k ≠ some kind := by
  intro kind hkind he
  obtain rfl := Option.some.inj (hu.first.symm.trans he)
  revert hkind
  decide

/-! ## §2 Before the place -/

theorem not_isKind {kind kind' : TokenKind} (h : l.kindAt i = some kind) (hne : kind ≠ kind') :
    l.isKind i kind' = false := by
  rw [isKind, h]
  exact decide_eq_false fun he => hne (Option.some.inj he)

theorem not_named (h : l.kindAt i ≠ some .name) : (l.tokens[i]?).filter (·.kind = .name) = none := by
  refine Option.filter_eq_none_iff.mpr fun t ht he => h ?_
  rw [kindAt, ht, Option.map_some, of_decide_eq_true he]

theorem name_congr (h : l'.wordAt j = l.wordAt i) :
    ((l'.tokens[j]?).filter (·.kind = .name)).map Token.text =
      ((l.tokens[i]?).filter (·.kind = .name)).map Token.text := by
  cases ht : l.tokens[i]? with
  | none => rw [none_of_wordAt h ht]
  | some t =>
    obtain ⟨t', ht', hkind, htext⟩ := exists_token_of_wordAt h ht
    rw [ht']
    by_cases hname : t.kind = .name <;> simp [Option.filter, hkind, hname, htext]

theorem isKind_congr (h : l'.wordAt j = l.wordAt i) (kind : TokenKind) :
    l'.isKind j kind = l.isKind i kind := by
  rw [isKind, isKind, kindAt_eq, kindAt_eq, h]

theorem any_congr (h : l'.wordAt j = l.wordAt i) (words : List Text) :
    (l'.tokens[j]?).any (·.isOneOf words) = (l.tokens[i]?).any (·.isOneOf words) := by
  cases ht : l.tokens[i]? with
  | none => rw [none_of_wordAt h ht]
  | some t =>
    obtain ⟨t', ht', hkind, htext⟩ := exists_token_of_wordAt h ht
    rw [ht', Option.any_some, Option.any_some, Token.isOneOf, Token.isOneOf]
    exact congrArg (List.any words) (funext fun w => isWord_eq hkind htext w)

/-- A semicolon is no backslash. -/
theorem text_of_semicolon (hl : tokenize source = .ok l) (ht : l.tokens[i]? = some t)
    (h : t.kind = .semicolon) : (t.text == ['\\']) = false := by
  obtain ⟨c, cs, hmeasure, htext⟩ := exists_measure hl ht
  refine Bool.eq_false_iff.mpr fun he => ?_
  rw [htext] at he
  obtain ⟨rfl, -⟩ := List.cons.inj (eq_of_beq he)
  rw [h] at hmeasure
  have hblank : isAsciiBlank '\\' = false := by decide
  have hstart : isNameStart '\\' = false := by decide
  by_cases hs : startsName cs = true <;> simp [measure, hblank, hstart, hs] at hmeasure

theorem groupName_of_second (h : (l.tokens[i + 1]?).any (·.text == ['\\']) = false) :
    groupName l i = none := by
  unfold groupName
  split
  · rename_i name sep brace hname hsep hbrace
    rw [hsep, Option.any_some] at h
    simp [h]
  · rfl

theorem word_before (h : Inserted k n block a m l l') (hj : j < k) : l'.wordAt j = l.wordAt j := by
  have := word_lift h j
  rwa [lift_of_lt hj] at this

theorem word_after (h : Inserted k n block a m l l') (hj : k ≤ j) :
    l'.wordAt (j + n) = l.wordAt j := by
  have := word_lift h j
  rwa [lift_of_le hj] at this

theorem partner_lt (hn : l.Nested) (hopen : l.isKind i .openParen = true) :
    ∃ q, l.partnerAt i = some q ∧ i < q := by
  have hkind := of_decide_eq_true hopen
  rw [kindAt] at hkind
  obtain ⟨t, ht, hkind⟩ := Option.map_eq_some_iff.mp hkind
  obtain ⟨q, hq⟩ := hn.partnered i t ht (.inl (by rw [hkind]; rfl))
  exact ⟨q, partnerAt_eq_some.mpr ⟨t, ht, hq⟩, hn.lt_partner ht (by rw [hkind]; rfl) hq⟩

/-- What a statement that imports no classes is passed over by. -/
theorem statement_of_no_classes (h : Inserted k n block a m l l') (hu : Unbraced l' k n)
    (hsize : i ≤ l.tokens.size) (hword : l'.wordAt (lift k n i) = l.wordAt i)
    (hno : l.isKind i .openParen = true ∨ (l.tokens[i]?).any (·.isOneOf ["function", "const"]) = true) :
    ∃ q, i ≤ q ∧ statement l i = ([], q + 1) ∧
      statement l' (lift k n i) = ([], lift k n q + 1) := by
  by_cases hopen : l.isKind i .openParen = true
  · obtain ⟨q, hq, hlt⟩ := partner_lt h.nested hopen
    refine ⟨q, hlt.le, ?_, ?_⟩
    · simp only [statement, if_pos hopen, hq, Option.getD_some]
    · have hq' := h.partnerAt_lift i
      rw [hq, Option.map_some] at hq'
      simp only [statement, isKind_congr hword, if_pos hopen, hq', Option.getD_some]
  · have hclasses := hno.resolve_left hopen
    refine ⟨statementStop l i, le_statementStop l hsize, ?_, ?_⟩
    · simp only [statement, if_neg hopen, if_pos hclasses, statementStop]
    · have hstop := statementStop_lift h hu.semicolons i
      rw [statementStop] at hstop
      simp only [statement, isKind_congr hword, if_neg hopen, any_congr hword, if_pos hclasses, hstop]

/-- A statement that imports classes and ends before the place. -/
theorem statement_before (h : Inserted k n block a m l l') (hu : Unbraced l' k n)
    (hl : tokenize source = .ok l) (hlist : l.isKind i .openParen = false)
    (hclasses : (l.tokens[i]?).any (·.isOneOf ["function", "const"]) = false)
    (hi : i ≤ statementStop l i) (hstop : statementStop l i < k) :
    statement l' i = statement l i := by
  have hend := kindAt_statementStop l i
  have hname : l.kindAt (statementStop l i) ≠ some .name := by
    obtain he | he := hend <;> rw [he] <;> simp
  have hstop' := statementStop_lift h hu.semicolons i
  rw [lift_of_lt (by omega), lift_of_lt hstop] at hstop'
  have hgroup : groupName l' i = groupName l i := by
    obtain heq | hone | hlt : i = statementStop l i ∨ i + 1 = statementStop l i ∨
      i + 2 ≤ statementStop l i := by omega
    · rw [← heq] at hname
      rw [groupName_of_kind hname, groupName_of_kind]
      rwa [kindAt_eq, word_before h (by omega), ← kindAt_eq]
    · -- the name is followed by the semicolon, so no group can begin there
      have hno : (l.tokens[i + 1]?).any (·.text == ['\\']) = false := by
        cases hu : l.tokens[i + 1]? with
        | none => rfl
        | some u =>
          obtain he | he := hend <;> rw [← hone, kindAt, hu] at he
          · exact text_of_semicolon hl hu (Option.some.inj he)
          · cases he
      have hno' : (l'.tokens[i + 1]?).any (·.text == ['\\']) = false := by
        have hword := word_before h (show i + 1 < k by omega)
        cases hv : l.tokens[i + 1]? with
        | none => rw [none_of_wordAt hword hv]; rfl
        | some v =>
          obtain ⟨v', hv', -, htext⟩ := exists_token_of_wordAt hword hv
          rw [hv, Option.any_some] at hno
          rw [hv', Option.any_some, htext, hno]
      rw [groupName_of_second hno, groupName_of_second hno']
    · exact groupName_congr (d := 0) fun j hj hj' => word_before h (by omega)
  obtain ⟨h₁, h₂⟩ := classes_of_group (d := 0) hlist hclasses rfl hstop' hi hname
    (fun j hj hj' => word_before h (by omega)) hgroup
  rw [Nat.add_zero] at h₁
  rw [h₁, ← h₂]

theorem statement_after (h : Inserted k n block a m l l') (hu : Unbraced l' k n) (hi : k ≤ i)
    (hsize : i ≤ l.tokens.size) :
    statement l' (i + n) = ((statement l i).1, (statement l i).2 + n) := by
  have hstop := statementStop_lift h hu.semicolons i
  have hle := le_statementStop l hsize
  rw [lift_of_le hi, lift_of_le (by omega)] at hstop
  have hword := word_lift h i
  by_cases hno : l.isKind i .openParen = true ∨
      (l.tokens[i]?).any (·.isOneOf ["function", "const"]) = true
  · obtain ⟨q, hq, h₁, h₂⟩ := statement_of_no_classes h hu hsize hword hno
    rw [lift_of_le hi, lift_of_le (by omega)] at h₂
    rw [h₁, h₂, Nat.add_right_comm]
  · obtain ⟨hlist, hclasses⟩ := not_or.mp hno
    have hend := kindAt_statementStop l i
    have hname : l.kindAt (statementStop l i) ≠ some .name := by
      obtain he | he := hend <;> rw [he] <;> simp
    obtain ⟨h₁, h₂⟩ := classes_congr (d := n) (Bool.eq_false_iff.mpr hlist)
      (Bool.eq_false_iff.mpr hclasses) rfl hstop hle hname
      fun j hj hj' => word_after h (by omega)
    rw [h₁, h₂, Nat.add_right_comm]

/-! ## §3 One step -/

/-- A step that stays before the place is the same in both sources, if what is put there begins with no
name and no brace, or no name stands before it. -/
theorem step_before (h : Inserted k n block a m l l') (hu : Unbraced l' k n)
    (hplace : (∀ kind ∈ [TokenKind.name, .openBrace], l'.kindAt k ≠ some kind) ∨
      ∀ j, j + 1 = k → l.kindAt j ≠ some .name)
    (ht : l.tokens[i]? = some t) (hl : tokenize source = .ok l) (hi : i < k) (hkind : t'.kind = t.kind) (htext : t'.text = t.text)
    (hle : (s.step l i t).2 ≤ k) : s.step l' i t' = s.step l i t := by
  unfold Collected.step at hle ⊢
  rw [hkind, isWord_eq hkind htext, isWord_eq hkind htext]
  by_cases hopen : t.kind = .openBrace
  · rw [if_pos hopen, if_pos hopen]
  rw [if_neg hopen] at hle ⊢
  rw [if_neg hopen]
  by_cases hclose : t.kind = .closeBrace
  · rw [if_pos hclose, if_pos hclose]
  rw [if_neg hclose] at hle ⊢
  rw [if_neg hclose]
  by_cases hns : (s.braces.isEmpty && t.isWord "namespace") = true
  · rw [if_pos hns] at hle ⊢
    rw [if_pos hns]
    dsimp only at hle ⊢
    -- a name that stands right before the place is followed by no name and no brace
    have hfirst : ∀ j, j + 1 = k → l.kindAt j = some .name → ∀ kind ∈ [TokenKind.name, .openBrace],
        l'.kindAt k ≠ some kind := fun j hj hname => hplace.resolve_right fun hnone => hnone j hj hname
    have hword : l.kindAt i = some .name := by
      simp only [Token.isWord, Bool.and_eq_true, decide_eq_true_eq] at hns
      rw [kindAt, ht, Option.map_some, hns.2.1]
    have hnamed : ((l'.tokens[i + 1]?).filter (·.kind = .name)).map Token.text =
        ((l.tokens[i + 1]?).filter (·.kind = .name)).map Token.text := by
      by_cases hik : i + 1 = k
      · have hnone : (l.tokens[i + 1]?).filter (·.kind = .name) = none := by
          cases hname : (l.tokens[i + 1]?).filter (·.kind = .name) with
          | none => rfl
          | some v =>
            rw [hname] at hle
            simp only [Option.isSome_some, if_true] at hle
            split at hle <;> omega
        rw [hnone, hik, not_named (hfirst i hik hword .name (by simp))]
      · exact name_congr (word_before h (by omega))
    have hsome : ((l'.tokens[i + 1]?).filter (·.kind = .name)).isSome =
        ((l.tokens[i + 1]?).filter (·.kind = .name)).isSome := by
      rw [← Option.isSome_map (f := Token.text), hnamed, Option.isSome_map]
    rw [hnamed, hsome]
    have hlast : ∀ next, (if ((l.tokens[i + 1]?).filter (·.kind = .name)).isSome = true then i + 2 else i + 1) =
        next → next = k → ∃ j, j + 1 = k ∧ l.kindAt j = some .name := by
      rintro next hnext rfl
      split at hnext
      · rename_i hsome
        obtain ⟨v, hv⟩ := Option.isSome_iff_exists.mp hsome
        obtain ⟨hv, hname⟩ := Option.filter_eq_some_iff.mp hv
        exact ⟨i + 1, hnext, by rw [kindAt, hv, Option.map_some, of_decide_eq_true hname]⟩
      · exact ⟨i, hnext, hword⟩
    generalize (if ((l.tokens[i + 1]?).filter (·.kind = .name)).isSome = true then i + 2 else i + 1) =
      next at hle hlast ⊢
    have hbraced : l'.isKind next .openBrace = l.isKind next .openBrace := by
      by_cases hnext : next = k
      · obtain ⟨j, hj, hname⟩ := hlast next rfl hnext
        subst hnext
        rw [isKind, decide_eq_false (hfirst j hj hname .openBrace (by simp))]
        refine (Bool.eq_false_iff.mpr fun hbrace => ?_).symm
        rw [if_pos hbrace] at hle
        omega
      · refine isKind_congr (word_before h ?_) _
        split at hle <;> omega
    rw [hbraced]
  rw [if_neg hns] at hle ⊢
  rw [if_neg hns]
  by_cases huse : (s.braces.all id && t.isWord "use") = true
  · rw [if_pos huse] at hle ⊢
    rw [if_pos huse]
    dsimp only at hle ⊢
    have hle' : (statement l (i + 1)).2 ≤ k := by omega
    have hsize : i + 1 ≤ l.tokens.size := by have := h.le_size; omega
    by_cases hno : l.isKind (i + 1) .openParen = true ∨
        (l.tokens[i + 1]?).any (·.isOneOf ["function", "const"]) = true
    · obtain ⟨q, hq, h₁, h₂⟩ := statement_of_no_classes h hu hsize (word_lift h (i + 1)) hno
      rw [h₁] at hle' ⊢
      dsimp only at hle'
      rw [lift_of_lt (by omega), lift_of_lt (by omega)] at h₂
      rw [h₂]
    · obtain ⟨hlist, hclasses⟩ := not_or.mp hno
      have hstop : (statement l (i + 1)).2 = statementStop l (i + 1) + 1 := by
        simp only [statement, if_neg hlist, if_neg hclasses, statementStop]
        split <;> rfl
      rw [statement_before h hu hl (Bool.eq_false_iff.mpr hlist) (Bool.eq_false_iff.mpr hclasses)
        (le_statementStop l hsize) (by omega)]
  · rw [if_neg huse, if_neg huse]

/-- A step over a statement that imports no classes leads to the same place. -/
theorem step_across (h : Inserted k n block a m l l') (hu : Unbraced l' k n) (hk : i + 1 < k)
    (hkind : t'.kind = t.kind) (htext : t'.text = t.text) (huse : t.isWord "use" = true)
    (hno : importsAt l s i t = false) (hlt : k < (s.step l i t).2) :
    s.step l' i t' = ((s.step l i t).1, (s.step l i t).2 + n) := by
  have hsize : i + 1 ≤ l.tokens.size := by have := h.le_size; omega
  have hname : t.kind = .name := by
    simp only [Token.isWord, Bool.and_eq_true, decide_eq_true_eq] at huse
    exact huse.1
  have hns : t.isWord "namespace" = false := by
    refine Bool.eq_false_iff.mpr fun hns => ?_
    simp only [Token.isWord, Bool.and_eq_true] at huse hns
    have := (eq_of_beq huse.2).symm.trans (eq_of_beq hns.2)
    revert this
    decide
  have hopen : ¬ t.kind = .openBrace := by simp [hname]
  have hclose : ¬ t.kind = .closeBrace := by simp [hname]
  unfold Collected.step at hlt ⊢
  rw [hkind, isWord_eq hkind htext, isWord_eq hkind htext]
  simp only [if_neg hopen, if_neg hclose, hns, Bool.and_false, Bool.false_eq_true, if_false, huse,
    Bool.and_true] at hlt ⊢
  by_cases hall : s.braces.all id = true
  · rw [if_pos hall] at hlt ⊢
    rw [if_pos hall]
    dsimp only at hlt ⊢
    rw [importsAt, huse, hall] at hno
    have hno' : l.isKind (i + 1) .openParen = true ∨
        (l.tokens[i + 1]?).any (·.isOneOf ["function", "const"]) = true := by
      by_cases hlist : l.isKind (i + 1) .openParen = true
      · exact .inl hlist
      · rw [Bool.eq_false_iff.mpr hlist, Bool.and_self, Bool.not_false, Bool.and_self, Bool.true_and,
          Bool.not_eq_false'] at hno
        exact .inr hno
    obtain ⟨q, hq, h₁, h₂⟩ := statement_of_no_classes h hu hsize (word_lift h (i + 1)) hno'
    rw [lift_of_lt hk] at h₂
    rw [h₁] at hlt ⊢
    dsimp only at hlt ⊢
    rw [h₂, lift_of_le (by omega)]
    refine Prod.ext rfl ?_
    dsimp only
    omega
  · rw [if_neg hall] at hlt
    dsimp only at hlt
    omega

/-- A step after the place is the same in both sources. -/
theorem step_after (h : Inserted k n block a m l l') (hu : Unbraced l' k n) (hi : k ≤ i)
    (ht : l.tokens[i]? = some t) (hkind : t'.kind = t.kind) (htext : t'.text = t.text) :
    s.step l' (i + n) t' = ((s.step l i t).1, (s.step l i t).2 + n) := by
  have hnext : ∀ j, i + n + j = i + j + n := fun j => Nat.add_right_comm i n j
  unfold Collected.step
  rw [hkind, isWord_eq hkind htext, isWord_eq hkind htext]
  by_cases hopen : t.kind = .openBrace
  · rw [if_pos hopen, if_pos hopen, hnext]
  rw [if_neg hopen, if_neg hopen]
  by_cases hclose : t.kind = .closeBrace
  · rw [if_pos hclose, if_pos hclose, hnext]
  rw [if_neg hclose, if_neg hclose]
  by_cases hns : (s.braces.isEmpty && t.isWord "namespace") = true
  · rw [if_pos hns, if_pos hns]
    dsimp only
    have hnamed := name_congr (word_after h (show k ≤ i + 1 by omega))
    have hsome : ((l'.tokens[i + 1 + n]?).filter (·.kind = .name)).isSome =
        ((l.tokens[i + 1]?).filter (·.kind = .name)).isSome := by
      rw [← Option.isSome_map (f := Token.text), hnamed, Option.isSome_map]
    rw [hnext, hnext, hnamed, hsome]
    have hplace : (if ((l.tokens[i + 1]?).filter (·.kind = .name)).isSome = true then i + 2 + n
        else i + 1 + n) =
        (if ((l.tokens[i + 1]?).filter (·.kind = .name)).isSome = true then i + 2 else i + 1) + n := by
      split <;> rfl
    have hge : i + 1 ≤
        (if ((l.tokens[i + 1]?).filter (·.kind = .name)).isSome = true then i + 2 else i + 1) := by
      split <;> omega
    rw [hplace]
    generalize (if ((l.tokens[i + 1]?).filter (·.kind = .name)).isSome = true then i + 2 else i + 1) =
      next at hge ⊢
    rw [isKind_congr (word_after h (show k ≤ next by omega))]
    refine Prod.ext rfl ?_
    dsimp only
    split <;> omega
  rw [if_neg hns, if_neg hns]
  by_cases huse : (s.braces.all id && t.isWord "use") = true
  · rw [if_pos huse, if_pos huse]
    dsimp only
    have hsize := (Array.getElem?_eq_some_iff.mp ht).1
    rw [hnext, statement_after h hu (by omega) hsize]
    exact Prod.ext rfl (Nat.add_max_add_right _ _ _)
  · rw [if_neg huse, if_neg huse, hnext]

/-! ## §4 The whole walk -/

/-- A token that is no brace and begins no statement is passed over. -/
theorem step_of_unread (hbraces : t.kind ≠ .openBrace ∧ t.kind ≠ .closeBrace)
    (huse : t.isWord "use" = false) (hns : t.isWord "namespace" = false) : s.step l i t = (s, i + 1) := by
  rw [Collected.step, if_neg hbraces.1, if_neg hbraces.2, huse, hns]
  simp

/-- The new tokens are passed over. -/
theorem comes_past (h : Inserted k n block a m l l') (hu : Unread l' k n) (hs : Comes l' k s) :
    Comes l' (k + n) s := by
  suffices hall : ∀ j, j ≤ n → Comes l' (k + j) s from hall n (Nat.le_refl n)
  intro j
  induction j with
  | zero => exact fun _ => hs
  | succ j ih =>
    intro hj
    have hsize := h.size
    have hle := h.le_size
    obtain ⟨t, ht⟩ : ∃ t, l'.tokens[k + j]? = some t := ⟨_, Array.getElem?_eq_getElem (by omega)⟩
    have hkind : l'.kindAt (k + j) = some t.kind := by rw [kindAt, ht]; rfl
    have hkinds := hu.kinds j (by omega)
    have hbraces : t.kind ≠ .openBrace ∧ t.kind ≠ .closeBrace :=
      ⟨fun he => hkinds .openBrace (by simp) (by rw [hkind, he]),
        fun he => hkinds .closeBrace (by simp) (by rw [hkind, he])⟩
    obtain ⟨huse, hns⟩ := hu.words j (by omega) t ht
    have := Comes.step (ih (by omega)) ht
    rwa [step_of_unread hbraces huse hns] at this

/-- Where the walk over the shorter source comes to, that over the longer one does. -/
theorem comes_uncrossed (h : Inserted k n block a m l l') (hu : Unread l' k n)
    (hl : tokenize source = .ok l) (huncrossed : Uncrossed l k) (hs : Comes l i s) :
    (i ≤ k → Comes l' i s) ∧ (k ≤ i → Comes l' (i + n) s) := by
  -- at the place itself the walk goes on after the new tokens
  have hplace : ∀ {i s}, i ≤ k → Comes l' i s → (i ≤ k → Comes l' i s) ∧ (k ≤ i → Comes l' (i + n) s) := by
    intro i s hi hs
    refine ⟨fun _ => hs, fun hk => ?_⟩
    obtain rfl : i = k := by omega
    exact comes_past h hu hs
  induction hs with
  | start => exact hplace (Nat.zero_le k) .start
  | @step i s t before token ih =>
    have hlt := Collected.lt_step l s i t
    obtain ⟨t', ht', hkind, htext⟩ := exists_token_lift h token
    by_cases hi : i < k
    · rw [lift_of_lt hi] at ht'
      have hnext := Comes.step (ih.1 hi.le) ht'
      by_cases hle : (s.step l i t).2 ≤ k
      · rw [step_before h hu.kinds (.inl hu.head) token hl hi hkind htext hle] at hnext
        exact hplace hle hnext
      · obtain ⟨huse, hk, hno⟩ := huncrossed i s t before token hi (by omega)
        rw [step_across h hu.kinds hk hkind htext huse hno (by omega)] at hnext
        exact ⟨fun hk => absurd hk hle, fun _ => hnext⟩
    · rw [lift_of_le (by omega)] at ht'
      have hnext := Comes.step (ih.2 (by omega)) ht'
      rw [step_after h hu.kinds (by omega) token hkind htext] at hnext
      exact ⟨fun hk => by omega, fun _ => hnext⟩

/-- New tokens that are not read leave the imports alone at a place that is clear. -/
theorem ofTokens_uncrossed (h : Inserted k n block a m l l') (hu : Unread l' k n)
    (hl : tokenize source = .ok l) (huncrossed : Uncrossed l k) : ofTokens l' = ofTokens l :=
  ofTokens_eq_of_comes h fun _ _ hs => (comes_uncrossed h hu hl huncrossed hs).2

/-- Up to the place the walks over both sources come to the same tokens. -/
theorem comes_of_inserted (h : Inserted k n block a m l l') (hu : Unread l' k n)
    (hl : tokenize source = .ok l) (huncrossed : Uncrossed l k) (hs : Comes l' i s) (hi : i ≤ k) :
    Comes l i s := by
  induction hs with
  | start => exact .start
  | @step i s t' before token' ih =>
    have hlt := Collected.lt_step l' s i t'
    obtain ⟨t, ht, hkind, htext⟩ := exists_token_of_wordAt (word_before h (show i < k by omega)).symm token'
    have hs := ih (by omega)
    by_cases hle : (s.step l i t).2 ≤ k
    · rw [step_before h hu.kinds (.inl hu.head) ht hl (by omega) hkind.symm htext.symm hle]
      exact .step hs ht
    · obtain ⟨huse, hk, hno⟩ := huncrossed i s t hs ht (by omega) (by omega)
      rw [step_across h hu.kinds hk hkind.symm htext.symm huse hno (by omega)] at hi
      dsimp only at hi
      omega

/-- A place before the new tokens is uncrossed if it was. -/
theorem uncrossed_of_inserted (h : Inserted k n block a m l l') (hu : Unread l' k n)
    (hl : tokenize source = .ok l) (huncrossed : Uncrossed l k) (hj : Uncrossed l j) (hle : j ≤ k) :
    Uncrossed l' j := by
  intro i s t' hs ht' hi hlt
  have hs := comes_of_inserted h hu hl huncrossed hs (by omega)
  obtain ⟨t, ht, hkind, htext⟩ := exists_token_of_wordAt (word_before h (show i < k by omega)).symm ht'
  have hlt' : j < (s.step l i t).2 := by
    by_cases hle' : (s.step l i t).2 ≤ k
    · rwa [step_before h hu.kinds (.inl hu.head) ht hl (by omega) hkind.symm htext.symm hle'] at hlt
    · omega
  obtain ⟨huse, hnext, hno⟩ := hj i s t hs ht hi hlt'
  have hword := isWord_eq hkind.symm htext.symm "use"
  have hafter := word_before h (show i + 1 < k by omega)
  refine ⟨hword.trans huse, hnext, ?_⟩
  rw [importsAt, hword, isKind_congr hafter, any_congr hafter]
  exact hno

/-- So is a stretch before them. -/
theorem clearBetween_of_inserted {out : Text} {start stop : Nat} (h : Inserted k n block a m l l')
    (hu : Unread l' k n) (hl : tokenize source = .ok l) (hl' : tokenize out = .ok l')
    (huncrossed : Uncrossed l k) (hstop : stop ≤ Text.width a) (hclear : ClearBetween source start stop) :
    ClearBetween out start stop := by
  intro l₂ q u hl₂ hq hlow hhigh
  obtain rfl := Except.ok.inj (hl'.symm.trans hl₂)
  have hlt : q < k := by
    by_contra hge
    by_cases hin : q < k + n
    · -- a token of those that were put in
      obtain ⟨j, rfl⟩ := Nat.exists_eq_add_of_le (Nat.le_of_not_lt hge)
      rw [h.inside j (by omega)] at hq
      obtain ⟨v, -, rfl⟩ := Option.map_eq_some_iff.mp hq
      replace hhigh : v.span.start + Text.width a < stop := hhigh
      omega
    · obtain ⟨i, rfl⟩ := Nat.exists_eq_add_of_le' (show n ≤ q by omega)
      have hmove := h.outside i
      rw [lift_of_le (show k ≤ i by omega), hq] at hmove
      obtain ⟨v, hv, he⟩ := Option.map_eq_some_iff.mp hmove.symm
      have hlate := h.late i v (by omega) hv
      have hstart : u.span.start = v.span.start + Text.width m := by
        rw [← he, Token.carried, move, if_neg (by omega)]
        rfl
      omega
  have hmove := h.outside q
  rw [lift_of_lt hlt, hq] at hmove
  obtain ⟨v, hv, he⟩ := Option.map_eq_some_iff.mp hmove.symm
  have hspan : u.span.start = v.span.start := by
    rw [← he, Token.carried, move, if_pos hlt]
  rw [hspan] at hlow hhigh
  exact uncrossed_of_inserted h hu hl huncrossed (hclear l q v hl hv hlow hhigh) hlt.le

end Crosslink.Source
