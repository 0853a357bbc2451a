import Crosslink.Proofs.Slices
import Crosslink.Proofs.Nesting

/-!
# Pieces put into a source

Some pieces whose brackets pair among themselves are put between two pieces of a source. Every token
of the source is then found again, at an index and at an offset that are greater by what was put
before it, and so is its partner.

* §1 `Reading.Embeds`, one reading found again in another, and that it stays so piece by piece.
* §2 `Balanced`, the pieces that can be put anywhere.
* §3 `Inserted`, the tokens of two sources of which the second has some pieces more, and
  `exists_inserted`, `exists_inserted'`: from either of them the other.
-/

namespace Crosslink

/-- The span moved on by some bytes. -/
def Span.shift (w : Nat) (s : Span) : Span := ⟨s.start + w, s.stop + w⟩

namespace Source

/-- A token found again elsewhere: `f` says where the tokens stand, and `g` where their texts do. -/
def Token.carried (f : Nat → Nat) (g : Nat → Span → Span) (i : Nat) (t : Token) : Token :=
  { t with span := g i t.span, partner := t.partner.map f }

namespace Reading

/-! ## 1. One reading in another -/

/-- What has been read is found again in another reading. The tokens and the open brackets that are
in the other reading only are these. -/
structure Embeds (f : Nat → Nat) (g : Nat → Span → Span) (base : List (Nat × TokenKind))
    (fixed : Nat → Option Token) (r r' : Reading) : Prop where
  size : ∀ j, f (r.tokens.size + j) = r'.tokens.size + j
  image : ∀ i, i < r.tokens.size → r'.tokens[f i]? = r.tokens[i]?.map (Token.carried f g i)
  rest : ∀ j, j < r'.tokens.size → (∀ i, i < r.tokens.size → f i ≠ j) → r'.tokens[j]? = fixed j
  opened : r'.opened.map (fun x => (x.1, x.2.kind))
    = r.opened.map (fun x => (f x.1, x.2.kind)) ++ base

variable {f : Nat → Nat} {g : Nat → Span → Span} {base : List (Nat × TokenKind)}
  {fixed : Nat → Option Token} {r r' a : Reading} {d : Nat}

theorem Embeds.push (h : Embeds f g base fixed r r') (hf : ∀ i j, f i = f j → i = j)
    (hg : ∀ i, r.tokens.size ≤ i → g i = Span.shift d) {t : Token} :
    Embeds f g base fixed (r.push t)
      (r'.push { t with span := t.span.shift d, partner := t.partner.map f }) where
  size j := by
    have := h.size (1 + j)
    simp only [Reading.push, Array.size_push] at this ⊢
    rw [Nat.add_assoc, Nat.add_assoc]
    exact this
  image i hi := by
    have h0 : f r.tokens.size = r'.tokens.size := h.size 0
    simp only [Reading.push, Array.size_push] at hi ⊢
    rw [Array.getElem?_push, Array.getElem?_push]
    by_cases hlast : i = r.tokens.size
    · subst hlast
      rw [if_pos h0, if_pos rfl, Option.map_some, Token.carried, hg _ (Nat.le_refl _)]
    · have hne : f i ≠ r'.tokens.size := fun he => hlast (hf _ _ (he.trans h0.symm))
      rw [if_neg hne, if_neg hlast]
      exact h.image i (by omega)
  rest j hj hnot := by
    have h0 : f r.tokens.size = r'.tokens.size := h.size 0
    simp only [Reading.push, Array.size_push] at hj hnot ⊢
    have hne : j ≠ r'.tokens.size := fun he => hnot _ (Nat.lt_succ_self _) (h0.trans he.symm)
    rw [Array.getElem?_push, if_neg hne]
    exact h.rest j (by omega) fun i hi => hnot i (by omega)
  opened := h.opened

theorem Embeds.adds (h : Embeds f g base fixed r r') (hr : r.Nested)
    (hf : ∀ i j, f i = f j → i = j) (hg : ∀ i, r.tokens.size ≤ i → g i = Span.shift d)
    {t : Token} (ht : t.partner = none) (ha : Adds r t a) :
    ∃ a', Adds r' { t with span := t.span.shift d } a' ∧ Embeds f g base fixed a a' := by
  have h0 : f r.tokens.size = r'.tokens.size := h.size 0
  have hpush := h.push hf hg (t := t)
  simp only [ht, Option.map_none] at hpush
  have hsame : ({ t with span := t.span.shift d, partner := none } : Token)
      = { t with span := t.span.shift d } := by rw [← ht]
  rw [hsame] at hpush
  cases ha with
  | plain opens closes => exact ⟨_, .plain opens closes, hpush⟩
  | opening opens =>
    refine ⟨_, .opening opens, hpush.size, hpush.image, hpush.rest, ?_⟩
    simp only [List.map_cons, List.cons_append, h0]
    rw [h.opened]
  | @closing openers i o rest opens closes hopened pairs =>
    have hopened' := h.opened
    rw [hopened, List.map_cons, List.cons_append] at hopened'
    obtain ⟨x, rest', hx, hx', hrest'⟩ := List.map_eq_cons_iff.mp hopened'
    obtain ⟨i', o'⟩ := x
    obtain ⟨rfl, hkind⟩ : i' = f i ∧ o'.kind = o.kind := Prod.mk.inj hx'
    have hi : i < r.tokens.size := hr.lt_size (x := (i, o)) (by simp [hopened])
    refine ⟨_, .closing opens closes hx (by rw [hkind]; exact pairs), ?_, ?_, ?_, ?_⟩
    · intro j
      have := h.size (1 + j)
      simp only [Array.size_push, Array.size_modify] at this ⊢
      rw [Nat.add_assoc, Nat.add_assoc]
      exact this
    · intro j hj
      simp only [Array.size_push, Array.size_modify] at hj
      simp only [Array.getElem?_push, Array.size_modify, Array.getElem?_modify]
      by_cases hlast : j = r.tokens.size
      · subst hlast
        rw [if_pos h0, if_pos rfl, Option.map_some, Token.carried, hg _ (Nat.le_refl _)]
        rfl
      · have hne : f j ≠ r'.tokens.size := fun he => hlast (hf _ _ (he.trans h0.symm))
        rw [if_neg hne, if_neg hlast]
        by_cases hij : i = j
        · subst hij
          rw [if_pos rfl, if_pos rfl, h.image i hi]
          cases r.tokens[i]? with
          | none => rfl
          | some u => simp [Token.carried, h0]
        · have hij' : f i ≠ f j := fun he => hij (hf _ _ he)
          rw [if_neg hij', if_neg hij]
          exact h.image j (by omega)
    · intro j hj hnot
      simp only [Array.size_push, Array.size_modify] at hj hnot
      simp only [Array.getElem?_push, Array.size_modify, Array.getElem?_modify]
      have hne : j ≠ r'.tokens.size := fun he => hnot _ (Nat.lt_succ_self _) (h0.trans he.symm)
      have hij : f i ≠ j := hnot i (by omega)
      rw [if_neg hne, if_neg hij]
      exact h.rest j (by omega) fun i hi => hnot i (by omega)
    · exact hrest'

/-- What one piece adds to a reading it adds to the other. -/
theorem Embeds.take (h : Embeds f g base fixed r r') (hr : r.Nested)
    (hf : ∀ i j, f i = f j → i = j) (hg : ∀ i, r.tokens.size ≤ i → g i = Span.shift d)
    {offset : Nat} {p : Piece} (ha : r.take offset p = some a) :
    ∃ a', r'.take (offset + d) p = some a' ∧ Embeds f g base fixed a a' := by
  unfold Reading.take at ha ⊢
  split at ha
  · cases ha
  · cases ha
    exact ⟨_, rfl, h.size, h.image, h.rest, h.opened⟩
  · rename_i kind hk
    obtain ⟨a', ha', hemb⟩ := h.adds hr hf hg rfl (token_eq_some.mp ha)
    refine ⟨a', token_eq_some.mpr ?_, hemb⟩
    simp only [Span.shift] at ha'
    rw [Nat.add_right_comm] at ha'
    exact ha'
  · cases ha
    exact ⟨_, rfl, h⟩

/-- What some pieces add to a reading they add to the other. -/
theorem Embeds.takeAll (h : Embeds f g base fixed r r') (hr : r.Nested)
    (hf : ∀ i j, f i = f j → i = j) (hg : ∀ i, r.tokens.size ≤ i → g i = Span.shift d)
    {offset : Nat} {ps : List Piece} (ha : r.takeAll offset ps = some a) :
    ∃ a', r'.takeAll (offset + d) ps = some a' ∧ Embeds f g base fixed a a' := by
  induction ps generalizing r r' offset with
  | nil =>
    cases ha
    exact ⟨r', rfl, h⟩
  | cons p ps ih =>
    obtain ⟨b, hb, ha⟩ := Option.bind_eq_some_iff.mp ha
    obtain ⟨b', hb', hemb⟩ := h.take hr hf hg hb
    have hsize : r.tokens.size ≤ b.tokens.size := by
      have := congrArg List.length (bare_of_take hb).1
      simp only [List.length_map, List.length_append, Array.length_toList] at this
      omega
    obtain ⟨a', ha', hemb'⟩ := ih hemb (hr.take hb) (fun i hi => hg i (by omega)) ha
    refine ⟨a', ?_, hemb'⟩
    rw [Nat.add_right_comm] at ha'
    rw [Reading.takeAll, hb']
    exact ha'

/-- A piece that the other reading takes is taken by the first, when both have the same brackets
open. -/
theorem Embeds.take_of_take (h : Embeds f g [] fixed r r') {offset : Nat} {p : Piece}
    {a' : Reading} (ha : r'.take (offset + d) p = some a') : ∃ a, r.take offset p = some a := by
  unfold Reading.take at ha ⊢
  split at ha
  · cases ha
  · exact ⟨_, rfl⟩
  · rename_i kind hk
    suffices ∃ a, Adds r ⟨kind, ⟨offset, offset + Text.width p.text⟩, p.text, none⟩ a by
      obtain ⟨a, hadds⟩ := this
      exact ⟨a, token_eq_some.mpr hadds⟩
    cases token_eq_some.mp ha with
    | plain opens closes => exact ⟨_, .plain opens closes⟩
    | opening opens => exact ⟨_, .opening opens⟩
    | closing opens closes hopened pairs =>
      have hopened' := h.opened
      rw [hopened, List.map_cons, List.append_nil] at hopened'
      obtain ⟨x, rest, hx, hx', -⟩ := List.map_eq_cons_iff.mp hopened'.symm
      have hkind := (Prod.mk.inj hx').2
      simp only at hkind
      exact ⟨_, .closing opens closes (i := x.1) (o := x.2) hx (by rw [hkind]; exact pairs)⟩
  · exact ⟨_, rfl⟩

theorem Embeds.takeAll_of_takeAll (h : Embeds f g [] fixed r r') (hr : r.Nested)
    (hf : ∀ i j, f i = f j → i = j) (hg : ∀ i, r.tokens.size ≤ i → g i = Span.shift d)
    {offset : Nat} {ps : List Piece} {a' : Reading} (ha : r'.takeAll (offset + d) ps = some a') :
    ∃ a, r.takeAll offset ps = some a := by
  induction ps generalizing r r' offset with
  | nil => exact ⟨r, rfl⟩
  | cons p ps ih =>
    obtain ⟨b', hb', ha⟩ := Option.bind_eq_some_iff.mp ha
    obtain ⟨b, hb⟩ := h.take_of_take hb'
    obtain ⟨c, hc, hemb⟩ := h.take hr hf hg hb
    obtain rfl : c = b' := Option.some.inj (hc.symm.trans hb')
    have hsize : r.tokens.size ≤ b.tokens.size := by
      have := congrArg List.length (bare_of_take hb).1
      simp only [List.length_map, List.length_append, Array.length_toList] at this
      omega
    obtain ⟨a, ha⟩ := ih hemb (hr.take hb) (fun i hi => hg i (by omega))
      (by rw [Nat.add_right_comm]; exact ha)
    exact ⟨a, by rw [Reading.takeAll, hb]; exact ha⟩

end Reading

/-! ## 2. Balanced pieces -/

/-- Pieces whose brackets pair among themselves, and what has been read of them when they are read
on their own. -/
def Balanced (ps : List Piece) (b : Reading) : Prop :=
  ({} : Reading).takeAll 0 ps = some b ∧ b.opened = []

theorem Balanced.nil : Balanced [] {} := ⟨rfl, rfl⟩

/-- Balanced pieces are read after whatever has been read, and leave its tokens and its open
brackets alone. -/
theorem Balanced.takeAll {ps : List Piece} {b : Reading} (h : Balanced ps b) (r : Reading)
    (offset : Nat) :
    ∃ r', r.takeAll offset ps = some r' ∧
      Reading.Embeds (· + r.tokens.size) (fun _ => Span.shift offset)
        (r.opened.map fun x => (x.1, x.2.kind)) (fun i => r.tokens[i]?) b r' := by
  have hstart : Reading.Embeds (· + r.tokens.size) (fun _ => Span.shift offset)
      (r.opened.map fun x => (x.1, x.2.kind)) (fun i => r.tokens[i]?) {} r := by
    refine ⟨fun j => ?_, fun i hi => ?_, fun _ _ _ => rfl, rfl⟩
    · simp [Nat.add_comm]
    · simp at hi
  have := hstart.takeAll Reading.Nested.empty (fun i j he => by omega)
    (fun _ _ => rfl) h.1
  rwa [Nat.zero_add] at this

/-! ## 3. Two sources, one with some pieces more -/

/-- The index at which a token is found again when `n` tokens are put before the token `k`. -/
def lift (k n i : Nat) : Nat := if i < k then i else i + n

/-- The span at which a token is found again when `w` bytes are put before the token `k`. -/
def move (k w i : Nat) (s : Span) : Span := if i < k then s else s.shift w

theorem lift_of_lt {k n i : Nat} (h : i < k) : lift k n i = i := if_pos h

theorem lift_of_le {k n i : Nat} (h : k ≤ i) : lift k n i = i + n := if_neg (by omega)

theorem lift_inj {k n i j : Nat} (h : lift k n i = lift k n j) : i = j := by
  unfold lift at h
  split at h <;> split at h <;> omega

theorem lift_lt_lift {k n i j : Nat} : lift k n i < lift k n j ↔ i < j := by
  unfold lift
  split <;> split <;> omega

theorem lift_succ {k n i : Nat} (h : i + 1 ≠ k) : lift k n (i + 1) = lift k n i + 1 := by
  unfold lift
  split <;> split <;> omega

/-- The place at which what ends before the token `i` goes on. -/
def resume (k n i : Nat) : Nat := lift k n (i - 1) + 1

theorem resume_of_ne {k n i : Nat} (hi : 0 < i) (h : i ≠ k) : resume k n i = lift k n i := by
  rw [resume, ← lift_succ (by omega), Nat.sub_add_cancel hi]

theorem resume_self {k n : Nat} (hk : 0 < k) : resume k n k = k := by
  rw [resume, lift_of_lt (by omega), Nat.sub_add_cancel hk]

/-- The tokens of two sources `a ++ b` and `a ++ m ++ b`, when `m` holds `n` tokens whose brackets
pair among themselves, the first of them at the index `k`. The tokens of `m` alone are those of
`block`. -/
structure Inserted (k n : Nat) (block : Array Token) (a m : Text) (l l' : TokenSequence) : Prop where
  nested : l.Nested
  nested' : l'.Nested
  le_size : k ≤ l.tokens.size
  size : l'.tokens.size = l.tokens.size + n
  outside : ∀ i, l'.tokens[lift k n i]? =
    l.tokens[i]?.map (Token.carried (lift k n) (move k (Text.width m)) i)
  size_block : block.size = n
  inside : ∀ j, j < n → l'.tokens[k + j]? =
    block[j]?.map (Token.carried (· + k) (fun _ => Span.shift (Text.width a)) j)
  closed : ∀ (j : Nat) (t : Token) (q : Nat), block[j]? = some t → t.partner = some q → q < n
  early : ∀ (i : Nat) (t : Token), i < k → l.tokens[i]? = some t → t.span.stop ≤ Text.width a
  late : ∀ (i : Nat) (t : Token), k ≤ i → l.tokens[i]? = some t → Text.width a ≤ t.span.start

variable {s s' : Text} {P M Q : List Piece} {b : Reading}

theorem size_of_takeAll {r r' : Reading} {offset : Nat} {ps : List Piece}
    (h : r.takeAll offset ps = some r') :
    r'.tokens.size = r.tokens.size + (tokensIn offset ps).length := by
  have := congrArg List.length (Reading.bare_of_takeAll h).1
  simpa using this

/-- Balanced pieces put after what has been read leave all of it where it was. -/
theorem Balanced.embeds (h : Balanced M b) {r : Reading} (hr : r.Nested) (offset : Nat) :
    ∃ r₁, r.takeAll offset M = some r₁ ∧
      Reading.Embeds (lift r.tokens.size b.tokens.size) (move r.tokens.size (Reading.extent M)) []
        (fun j => r₁.tokens[j]?) r r₁ ∧
      ∀ j, j < b.tokens.size → r₁.tokens[r.tokens.size + j]? =
        b.tokens[j]?.map (Token.carried (· + r.tokens.size) (fun _ => Span.shift offset) j) := by
  obtain ⟨r₁, hr₁, hemb⟩ := h.takeAll r offset
  have hsize : r₁.tokens.size = r.tokens.size + b.tokens.size := by
    have := hemb.size 0
    simp only [Nat.add_zero] at this
    omega
  refine ⟨r₁, hr₁, ⟨fun j => ?_, fun i hi => ?_, fun _ _ _ => rfl, ?_⟩, fun j hj => ?_⟩
  · rw [lift_of_le (by omega)]
    omega
  · have hrest := hemb.rest i (by omega) (fun j _ => by omega)
    rw [lift_of_lt hi, hrest]
    cases ht : r.tokens[i]? with
    | none => rfl
    | some t =>
      have hpartner : t.partner.map (lift r.tokens.size b.tokens.size) = t.partner := by
        cases hp : t.partner with
        | none => rfl
        | some q => rw [Option.map_some, lift_of_lt (hr.partner_lt ht hp)]
      rw [Option.map_some, Token.carried, move, if_pos hi, hpartner]
  · rw [hemb.opened, h.2, List.map_nil, List.nil_append, List.append_nil]
    refine List.map_congr_left fun x hx => ?_
    rw [lift_of_lt (hr.lt_size hx)]
  · rw [Nat.add_comm r.tokens.size j]
    exact hemb.image j hj

theorem span_of_tokenize {l : TokenSequence} (hl : tokenize s = .ok l) (hs : cut s = P ++ Q)
    {i : Nat} {t : Token} (ht : l.tokens[i]? = some t) :
    (i < (tokensIn 0 P).length → t.span.stop ≤ Reading.extent P) ∧
      ((tokensIn 0 P).length ≤ i → Reading.extent P ≤ t.span.start) := by
  have hbare := (bare_of_tokenize hl).1
  rw [hs, tokensIn_append, Nat.zero_add] at hbare
  have hat : (tokensIn 0 P ++ tokensIn (Reading.extent P) Q)[i]? = some t.bare := by
    rw [← hbare, List.getElem?_map, Array.getElem?_toList, ht]
    rfl
  constructor
  · intro hi
    rw [List.getElem?_append_left hi] at hat
    have := (span_of_mem_tokensIn (List.mem_of_getElem? hat)).2.2
    rwa [Nat.zero_add] at this
  · intro hi
    rw [List.getElem?_append_right hi] at hat
    exact (span_of_mem_tokensIn (List.mem_of_getElem? hat)).1

theorem inserted_of_embeds {r₀ r₁ r r' : Reading} (hr₀ : ({} : Reading).takeAll 0 P = some r₀)
    (hr : r₀.takeAll (Reading.extent P) Q = some r) (hM : Balanced M b)
    (hemb : Reading.Embeds (lift r₀.tokens.size b.tokens.size)
      (move r₀.tokens.size (Reading.extent M)) [] (fun j => r₁.tokens[j]?) r r')
    (hin : ∀ j, j < b.tokens.size → r₁.tokens[r₀.tokens.size + j]? =
      b.tokens[j]?.map
        (Token.carried (· + r₀.tokens.size) (fun _ => Span.shift (Reading.extent P)) j))
    {l l' : TokenSequence} (hs : cut s = P ++ Q) (hl : tokenize s = .ok l)
    (hl' : tokenize s' = .ok l') (htokens : l.tokens = r.tokens) (htokens' : l'.tokens = r'.tokens) :
    Inserted (tokensIn 0 P).length b.tokens.size b.tokens (P.flatMap Piece.text)
      (M.flatMap Piece.text) l l' := by
  have hk : r₀.tokens.size = (tokensIn 0 P).length := by simpa using size_of_takeAll hr₀
  have hle : r₀.tokens.size ≤ r.tokens.size := by
    have := size_of_takeAll hr
    omega
  have hsize : r'.tokens.size = r.tokens.size + b.tokens.size := by
    have := hemb.size 0
    rw [lift_of_le (by omega)] at this
    omega
  rw [hk] at hemb hin hle
  refine ⟨nested_of_tokenize hl, nested_of_tokenize hl', by rw [htokens]; exact hle,
    by rw [htokens, htokens', hsize], fun i => ?_, rfl, fun j hj => ?_, fun j t q ht hq => ?_,
    fun i t hi ht => (span_of_tokenize hl hs ht).1 hi,
    fun i t hi ht => (span_of_tokenize hl hs ht).2 hi⟩
  · rw [htokens, htokens']
    by_cases hi : i < r.tokens.size
    · exact hemb.image i hi
    · have hnone : r.tokens[i]? = none := Array.getElem?_eq_none (by omega)
      have hnone' : r'.tokens[i + b.tokens.size]? = none := Array.getElem?_eq_none (by omega)
      rw [lift_of_le (by omega), hnone, hnone']
      rfl
  · refine .trans ?_ (hin j hj)
    rw [htokens']
    refine hemb.rest _ (by omega) fun i _ he => ?_
    unfold lift at he
    split at he <;> omega
  · exact (Reading.Nested.empty.takeAll hM.1).partner_lt ht hq

/-- Balanced pieces can be put into a source that is read. -/
theorem exists_inserted {l : TokenSequence} (hs : cut s = P ++ Q) (hs' : cut s' = P ++ (M ++ Q))
    (hM : Balanced M b) (hl : tokenize s = .ok l) :
    ∃ l', tokenize s' = .ok l' ∧
      Inserted (tokensIn 0 P).length b.tokens.size b.tokens (P.flatMap Piece.text)
        (M.flatMap Piece.text) l l' := by
  obtain ⟨r, hr, hnil, rfl⟩ := tokenize_eq_ok.mp hl
  rw [hs, takeAll_append] at hr
  obtain ⟨r₀, hr₀, hr⟩ := Option.bind_eq_some_iff.mp hr
  rw [Nat.zero_add] at hr
  have hnested := Reading.Nested.empty.takeAll hr₀
  obtain ⟨r₁, hr₁, hemb, hin⟩ := hM.embeds hnested (Reading.extent P)
  obtain ⟨r', hr', hemb'⟩ := hemb.takeAll (d := Reading.extent M) hnested (fun _ _ => lift_inj)
    (fun i hi => funext fun sp => if_neg (by omega)) hr
  have hopened : r'.opened = [] := by
    have := hemb'.opened
    rw [hnil] at this
    simpa using this
  have hl' : tokenize s' = .ok ⟨r'.tokens, r'.docs.reverse⟩ := by
    refine tokenize_eq_ok.mpr ⟨r', ?_, hopened, rfl⟩
    rw [hs', takeAll_append, hr₀, Option.bind_some, Nat.zero_add, takeAll_append, hr₁,
      Option.bind_some]
    exact hr'
  exact ⟨_, hl', inserted_of_embeds hr₀ hr hM hemb' hin hs hl hl' rfl rfl⟩

/-- Balanced pieces can be taken out of a source that is read. -/
theorem exists_inserted' {l' : TokenSequence} (hs : cut s = P ++ Q) (hs' : cut s' = P ++ (M ++ Q))
    (hM : Balanced M b) (hl' : tokenize s' = .ok l') :
    ∃ l, tokenize s = .ok l ∧
      Inserted (tokensIn 0 P).length b.tokens.size b.tokens (P.flatMap Piece.text)
        (M.flatMap Piece.text) l l' := by
  obtain ⟨r', hr', hnil, rfl⟩ := tokenize_eq_ok.mp hl'
  rw [hs', takeAll_append] at hr'
  obtain ⟨r₀, hr₀, hr'⟩ := Option.bind_eq_some_iff.mp hr'
  rw [Nat.zero_add, takeAll_append] at hr'
  obtain ⟨r₁', hr₁', hr'⟩ := Option.bind_eq_some_iff.mp hr'
  have hnested := Reading.Nested.empty.takeAll hr₀
  obtain ⟨r₁, hr₁, hemb, hin⟩ := hM.embeds hnested (Reading.extent P)
  obtain rfl : r₁ = r₁' := Option.some.inj (hr₁.symm.trans hr₁')
  have hmove : ∀ i, r₀.tokens.size ≤ i →
      move r₀.tokens.size (Reading.extent M) i = Span.shift (Reading.extent M) :=
    fun i hi => funext fun sp => if_neg (by omega)
  obtain ⟨r, hr⟩ := hemb.takeAll_of_takeAll hnested (fun _ _ => lift_inj) hmove hr'
  obtain ⟨r'', hr'', hemb'⟩ := hemb.takeAll hnested (fun _ _ => lift_inj) hmove hr
  obtain rfl : r'' = r' := Option.some.inj (hr''.symm.trans hr')
  have hopened : r.opened = [] := by
    have := hemb'.opened
    rw [hnil] at this
    simpa using this.symm
  have hl : tokenize s = .ok ⟨r.tokens, r.docs.reverse⟩ := by
    refine tokenize_eq_ok.mpr ⟨r, ?_, hopened, rfl⟩
    rw [hs, takeAll_append, hr₀, Option.bind_some, Nat.zero_add]
    exact hr
  exact ⟨_, hl, inserted_of_embeds hr₀ hr hM hemb' hin hs hl hl' rfl rfl⟩

end Source

end Crosslink
