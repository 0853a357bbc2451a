import Crosslink.Proofs.Blocks
import Crosslink.Proofs.Sites

/-!
# Sources that begin alike

When two sources begin with the same pieces, their tokens among these are the same, and so are all
pairs of brackets among them; a bracket left open there is closed later in both. What is decided
among these tokens is decided alike in both sources.

* §1 Brackets that later pieces leave alone.
* §2 `Begins`, what two sources have in common that begin alike.
* §3 Walks over lists.
* §4 Calls, chains and sites.
-/

namespace Crosslink.Source

variable {source source' : Text} {P Q Q' : List Piece}

/-! ## 1. Brackets read before -/

namespace Reading

theorem Adds.kept {r r' : Reading} {t : Token} (h : Adds r t r') (hr : r.Nested) {i : Nat} {u : Token}
    (hu : r.tokens[i]? = some u) :
    ∃ v, r'.tokens[i]? = some v ∧ (∀ q, u.partner = some q → v.partner = some q) ∧
      ∀ q, u.partner = none → v.partner = some q → r.tokens.size ≤ q := by
  have hi := (Array.getElem?_eq_some_iff.mp hu).1
  have hpush : ∀ w, (r.tokens.push w)[i]? = some u := fun w => by
    rw [Array.getElem?_push_lt hi]
    exact congrArg some (Array.getElem?_eq_some_iff.mp hu).2
  cases h with
  | plain opens closes =>
    exact ⟨u, hpush _, fun _ hq => hq, fun q hn hq => by rw [hn] at hq; cases hq⟩
  | opening opens =>
    exact ⟨u, hpush _, fun _ hq => hq, fun q hn hq => by rw [hn] at hq; cases hq⟩
  | @closing openers j o rest opens closes hopened pairs =>
    by_cases hij : i = j
    · subst hij
      obtain ⟨w, hw, -, -, hnone⟩ := hr.opened (i, o) (by rw [hopened]; simp)
      obtain rfl := Option.some.inj (hu.symm.trans hw)
      refine ⟨{ u with partner := some r.tokens.size }, ?_, fun q hq => ?_, fun q _ hq => ?_⟩
      · exact getElem?_close.mpr (.inr (.inr ⟨rfl, u, hu, rfl⟩))
      · rw [hnone] at hq
        cases hq
      · exact Nat.le_of_eq (Option.some.inj hq)
    · exact ⟨u, getElem?_close.mpr (.inr (.inl ⟨hij, hu⟩)), fun _ hq => hq,
        fun q hn hq => by rw [hn] at hq; cases hq⟩

theorem take_kept {r r' : Reading} {offset : Nat} {p : Piece} (h : r.take offset p = some r')
    (hr : r.Nested) {i : Nat} {u : Token} (hu : r.tokens[i]? = some u) :
    ∃ v, r'.tokens[i]? = some v ∧ (∀ q, u.partner = some q → v.partner = some q) ∧
      ∀ q, u.partner = none → v.partner = some q → r.tokens.size ≤ q := by
  have hsame : r'.tokens = r.tokens → ∃ v, r'.tokens[i]? = some v ∧
      (∀ q, u.partner = some q → v.partner = some q) ∧
      ∀ q, u.partner = none → v.partner = some q → r.tokens.size ≤ q := fun he =>
    ⟨u, by rw [he]; exact hu, fun _ hq => hq, fun q hn hq => by rw [hn] at hq; cases hq⟩
  unfold Reading.take at h
  split at h
  · cases h
  · exact hsame (by rw [← Option.some.inj h])
  · exact (token_eq_some.mp h).kept hr hu
  · exact hsame (by rw [← Option.some.inj h])

/-- Later pieces leave the pairs alone that have been read, and pair an open bracket with a later
one only. -/
theorem takeAll_kept {r r' : Reading} {offset : Nat} {ps : List Piece}
    (h : r.takeAll offset ps = some r') (hr : r.Nested) {i : Nat} {u : Token}
    (hu : r.tokens[i]? = some u) :
    ∃ v, r'.tokens[i]? = some v ∧ (∀ q, u.partner = some q → v.partner = some q) ∧
      ∀ q, u.partner = none → v.partner = some q → r.tokens.size ≤ q := by
  induction ps generalizing r offset u with
  | nil =>
    obtain rfl := Option.some.inj h
    exact ⟨u, hu, fun _ hq => hq, fun q hn hq => by rw [hn] at hq; cases hq⟩
  | cons p ps ih =>
    obtain ⟨r₁, h₁, h⟩ := Option.bind_eq_some_iff.mp h
    obtain ⟨v, hv, hkept, hnew⟩ := take_kept h₁ hr hu
    obtain ⟨w, hw, hkept', hnew'⟩ := ih h (hr.take h₁) hv
    refine ⟨w, hw, fun q hq => hkept' q (hkept q hq), fun q hn hq => ?_⟩
    cases hv' : v.partner with
    | none =>
      have hone : r.takeAll offset [p] = some r₁ := by rw [Reading.takeAll, h₁]; rfl
      have hsize := size_of_takeAll hone
      have := hnew' q hv' hq
      omega
    | some q' =>
      have := hnew q' hn hv'
      rw [hkept' q' hv'] at hq
      obtain rfl := Option.some.inj hq
      exact this

end Reading

/-! ## 2. What is alike -/

namespace TokenSequence

/-- The tokens before the index `k` are the same in two sources, and so is how they pair. -/
structure Begins (k : Nat) (l l' : TokenSequence) : Prop where
  nested : l.Nested
  nested' : l'.Nested
  word : ∀ i, i < k → l'.wordAt i = l.wordAt i
  within : ∀ i q, i < k → q < k → l.partnerAt i = some q → l'.partnerAt i = some q
  beyond : ∀ i q, i < k → k ≤ q → l.partnerAt i = some q → ∃ q', k ≤ q' ∧ l'.partnerAt i = some q'

end TokenSequence

open TokenSequence

variable {l l' : TokenSequence} {k : Nat}

theorem partner_of_cut (h : cut source = P ++ Q) (hl : tokenize source = .ok l) :
    ∃ r : Reading, ({} : Reading).takeAll 0 P = some r ∧ r.tokens.size = (P.filterMap wordOf).length ∧
      ∀ i u, r.tokens[i]? = some u →
        (∀ q, u.partner = some q → l.partnerAt i = some q) ∧
        ∀ q, u.partner = none → l.partnerAt i = some q → (P.filterMap wordOf).length ≤ q := by
  obtain ⟨r', hr', -, rfl⟩ := tokenize_eq_ok.mp hl
  rw [h, takeAll_append] at hr'
  obtain ⟨r, hr, hr'⟩ := Option.bind_eq_some_iff.mp hr'
  have hsize : r.tokens.size = (P.filterMap wordOf).length := by
    rw [size_of_takeAll hr, length_tokensIn]
    simp
  refine ⟨r, hr, hsize, fun i u hu => ?_⟩
  obtain ⟨v, hv, hkept, hnew⟩ := Reading.takeAll_kept hr' (Reading.Nested.empty.takeAll hr) hu
  refine ⟨fun q hq => partnerAt_eq_some.mpr ⟨v, hv, hkept q hq⟩, fun q hn hq => ?_⟩
  obtain ⟨w, hw, hwq⟩ := partnerAt_eq_some.mp hq
  obtain rfl := Option.some.inj (hv.symm.trans hw)
  rw [← hsize]
  exact hnew q hn hwq

theorem exists_partner_of_word (hl : l.Nested) (hl' : l'.Nested) {i q : Nat}
    (hword : l'.wordAt i = l.wordAt i) (h : l.partnerAt i = some q) :
    ∃ q', l'.partnerAt i = some q' := by
  obtain ⟨t, ht, htq⟩ := partnerAt_eq_some.mp h
  rw [wordAt, wordAt, ht] at hword
  obtain ⟨t', ht', he⟩ := Option.map_eq_some_iff.mp hword
  have hbracket : t.kind.opens = true ∨ t.kind.closes ≠ none := by
    obtain ⟨v, -, -, ⟨-, hopens, -⟩ | ⟨-, -, -, openers, hcloses, -⟩⟩ := hl.pair i t q ht htq
    · exact .inl hopens
    · exact .inr (by rw [hcloses]; simp)
  rw [← (Prod.mk.inj he).1] at hbracket
  obtain ⟨q', hq'⟩ := hl'.partnered i t' ht' hbracket
  exact ⟨q', partnerAt_eq_some.mpr ⟨t', ht', hq'⟩⟩

/-- Two sources that begin with the same pieces begin alike. -/
theorem begins_of_cut (h : cut source = P ++ Q) (h' : cut source' = P ++ Q')
    (hl : tokenize source = .ok l) (hl' : tokenize source' = .ok l') :
    Begins (P.filterMap wordOf).length l l' := by
  obtain ⟨r, hr, hsize, hpartner⟩ := partner_of_cut h hl
  obtain ⟨r', hr', -, hpartner'⟩ := partner_of_cut h' hl'
  obtain rfl := Option.some.inj (hr.symm.trans hr')
  refine ⟨nested_of_tokenize hl, nested_of_tokenize hl',
    fun i hi => by rw [wordAt_before hl h hi, wordAt_before hl' h' hi],
    fun i q hi hq hiq => ?_, fun i q hi hq hiq => ?_⟩
  · obtain ⟨u, hu⟩ : ∃ u, r.tokens[i]? = some u := ⟨_, Array.getElem?_eq_getElem (by omega)⟩
    cases hup : u.partner with
    | none =>
      have := (hpartner i u hu).2 q hup hiq
      omega
    | some q' =>
      have := (hpartner i u hu).1 q' hup
      obtain rfl := Option.some.inj (hiq.symm.trans this)
      exact (hpartner' i u hu).1 q hup
  · obtain ⟨u, hu⟩ : ∃ u, r.tokens[i]? = some u := ⟨_, Array.getElem?_eq_getElem (by omega)⟩
    -- the bracket is open when the common pieces end, so it is closed later in both
    have hup : u.partner = none := by
      cases hup : u.partner with
      | none => rfl
      | some q' =>
        have := (hpartner i u hu).1 q' hup
        obtain rfl := Option.some.inj (hiq.symm.trans this)
        obtain ⟨v, hv, -⟩ := (Reading.Nested.empty.takeAll hr).pair i u q hu hup
        have := (Array.getElem?_eq_some_iff.mp hv).1
        omega
    have hw : l'.wordAt i = l.wordAt i := by rw [wordAt_before hl h hi, wordAt_before hl' h' hi]
    obtain ⟨q', hiq'⟩ := exists_partner_of_word (nested_of_tokenize hl) (nested_of_tokenize hl') hw hiq
    exact ⟨q', (hpartner' i u hu).2 q' hup hiq', hiq'⟩

namespace TokenSequence.Begins

variable {i q : Nat}

theorem symm (h : Begins k l l') : Begins k l' l := by
  have hback : ∀ i q, i < k → l'.partnerAt i = some q → ∃ q₀, l.partnerAt i = some q₀ ∧
      (q₀ < k → q = q₀) ∧ (k ≤ q₀ → k ≤ q) := by
    intro i q hi hq
    obtain ⟨q₀, hq₀⟩ := exists_partner_of_word h.nested' h.nested (h.word i hi).symm hq
    refine ⟨q₀, hq₀, fun hlt => ?_, fun hle => ?_⟩
    · exact Option.some.inj (hq.symm.trans (h.within i q₀ hi hlt hq₀))
    · obtain ⟨q₁, hle₁, hq₁⟩ := h.beyond i q₀ hi hle hq₀
      rwa [Option.some.inj (hq.symm.trans hq₁)]
  refine ⟨h.nested', h.nested, fun i hi => (h.word i hi).symm, fun i q hi hqk hq => ?_,
    fun i q hi hkq hq => ?_⟩
  · obtain ⟨q₀, hq₀, hsame, hlater⟩ := hback i q hi hq
    have hlt : q₀ < k := Nat.lt_of_not_le fun hle => by have := hlater hle; omega
    rw [hq₀, hsame hlt]
  · obtain ⟨q₀, hq₀, hsame, hlater⟩ := hback i q hi hq
    refine ⟨q₀, Nat.le_of_not_lt fun hlt => ?_, hq₀⟩
    have := hsame hlt
    omega

theorem mono (h : Begins k l l') {j : Nat} (hj : j ≤ k) : Begins j l l' := by
  refine ⟨h.nested, h.nested', fun i hi => h.word i (by omega),
    fun i q hi hq => h.within i q (by omega) (by omega), fun i q hi hq hiq => ?_⟩
  by_cases hqk : q < k
  · exact ⟨q, hq, h.within i q (by omega) hqk hiq⟩
  · obtain ⟨q', hq', hiq'⟩ := h.beyond i q (by omega) (by omega) hiq
    exact ⟨q', by omega, hiq'⟩

theorem trans {l'' : TokenSequence} (h : Begins k l l') (h' : Begins k l' l'') : Begins k l l'' := by
  refine ⟨h.nested, h'.nested', fun i hi => (h'.word i hi).trans (h.word i hi),
    fun i q hi hq hiq => h'.within i q hi hq (h.within i q hi hq hiq), fun i q hi hq hiq => ?_⟩
  obtain ⟨q', hq', hiq'⟩ := h.beyond i q hi hq hiq
  exact h'.beyond i q' hi hq' hiq'

theorem kindAt (h : Begins k l l') (hi : i < k) : l'.kindAt i = l.kindAt i := by
  rw [kindAt_eq, kindAt_eq, h.word i hi]

theorem isKind (h : Begins k l l') (hi : i < k) (kind : TokenKind) :
    l'.isKind i kind = l.isKind i kind := by
  rw [TokenSequence.isKind, TokenSequence.isKind, h.kindAt hi]

/-! ## 3. Walks -/

theorem lastOf (h : Begins k l l') (hi : l.lastOf i < k) : l'.lastOf i = l.lastOf i := by
  have hik : i < k := Nat.lt_of_le_of_lt (l.le_lastOf i) hi
  cases hq : l.partnerAt i with
  | some q =>
    have hqk : q < k := by
      refine Nat.lt_of_not_le fun hle => ?_
      rw [TokenSequence.lastOf, hq] at hi
      simp only [show i < q by omega, if_true] at hi
      omega
    rw [TokenSequence.lastOf, TokenSequence.lastOf, hq, h.within i q hik hqk hq]
  | none =>
    cases hq' : l'.partnerAt i with
    | none => rw [TokenSequence.lastOf, TokenSequence.lastOf, hq, hq']
    | some q' =>
      obtain ⟨q, hiq⟩ := exists_partner_of_word h.nested' h.nested (h.word i hik).symm hq'
      rw [hq] at hiq
      cases hiq

theorem walks (h : Begins k l l') {o p : Option (Nat × Nat)} {i j : Nat} {S : List (Nat × Nat)}
    (hw : Walks l o i S p j) (hj : j ≤ k) : Walks l' o i S p j := by
  induction hw with
  | refl => exact .refl _ _
  | comma kind rest ih =>
    have := rest.le
    exact .comma (by rw [h.isKind (by omega)]; exact kind) (ih hj)
  | @item o p i j S kind rest ih =>
    have := rest.le
    have hle := l.le_lastOf i
    have hlast : l'.lastOf i = l.lastOf i := h.lastOf (by omega)
    refine .item (by rw [h.isKind (by omega)]; exact kind) ?_
    rw [hlast]
    exact ih hj

end TokenSequence.Begins

end Crosslink.Source

namespace Crosslink.FluentChain

open Source Source.TokenSequence

variable {l l' : TokenSequence} {k i j c : Nat}

/-! ## 4. Calls -/

theorem IsCall.begins (h : IsCall l i c) (hb : Begins k l l') (hi : i + 2 < k) :
    (c < k → IsCall l' i c) ∧ (k ≤ c → ∃ c', k ≤ c' ∧ IsCall l' i c') := by
  have harrow : l'.isKind i .arrow = true := by rw [hb.isKind (by omega)]; exact h.arrow
  have hname : l'.isKind (i + 1) .name = true := by rw [hb.isKind (by omega)]; exact h.name
  have hopener : l'.isKind (i + 2) .openParen = true := by rw [hb.isKind hi]; exact h.opener
  refine ⟨fun hc => ⟨harrow, hname, hopener, hb.within _ _ hi hc h.partner⟩, fun hc => ?_⟩
  obtain ⟨c', hc', hp⟩ := hb.beyond _ _ hi hc h.partner
  exact ⟨c', hc', harrow, hname, hopener, hp⟩

theorem Reaches.le (hl : l.Nested) (h : Reaches l i j) : i ≤ j := by
  induction h with
  | refl => exact Nat.le_refl _
  | step hc rest ih =>
    have := hc.lt hl
    omega

theorem Reaches.begins (h : Reaches l i j) (hb : Begins k l l') (hj : j ≤ k) : Reaches l' i j := by
  induction h with
  | refl => exact .refl _
  | step hc rest ih =>
    have hle := rest.le hb.nested
    have hlt := hc.lt hb.nested
    exact .step ((hc.begins hb (by omega)).1 (by omega)) (ih hj)

theorem isWord_congr {t t' : Token} (hkind : t'.kind = t.kind) (htext : t'.text = t.text)
    (word : Text) : t'.isWord word = t.isWord word := by
  rw [Token.isWord, Token.isWord, hkind, htext]

theorem siteAt_begins {keyword : Keyword} (h : siteAt l i = some (keyword, c)) (hb : Begins k l l')
    (hc : c < k) : siteAt l' i = some (keyword, c) := by
  obtain ⟨t, ht, hcall⟩ := Option.bind_eq_some_iff.mp h
  obtain ⟨hword, hbarred, hopen, hpartner⟩ := keywordCall_eq_some.mp hcall
  have hlt := lt_of_openParen hb.nested hopen hpartner
  have hw := hb.word i (by omega)
  rw [wordAt, wordAt, ht] at hw
  obtain ⟨t', ht', he⟩ := Option.map_eq_some_iff.mp hw
  obtain ⟨hkind, htext⟩ := Prod.mk.inj he
  rw [siteAt, ht', Option.bind_some]
  refine keywordCall_eq_some.mpr ⟨?_, ?_, ?_, hb.within _ _ (by omega) hc hpartner⟩
  · rw [← hword, Keyword.ofToken, Keyword.ofToken, isWord_congr hkind htext,
      isWord_congr hkind htext, isWord_congr hkind htext]
  · unfold barred at hbarred ⊢
    split
    · rfl
    · rename_i hi
      rw [if_neg hi] at hbarred
      have hw := hb.word (i - 1) (by omega)
      rw [wordAt, wordAt] at hw
      cases hu : l.tokens[i - 1]? with
      | none =>
        rw [hu] at hw
        rw [Option.map_eq_none_iff.mp hw]
        rfl
      | some u =>
        rw [hu] at hw hbarred
        obtain ⟨u', hu', he⟩ := Option.map_eq_some_iff.mp hw
        obtain ⟨hkind, htext⟩ := Prod.mk.inj he
        rw [hu']
        simpa [FluentChain.bars, Token.isOneOf, Token.isWord, hkind, htext] using hbarred
  · rw [hb.isKind (by omega)]
    exact hopen

end Crosslink.FluentChain
