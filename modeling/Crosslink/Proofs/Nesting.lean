import Crosslink.Source.TokenSequence
import Crosslink.Proofs.Cutting

/-!
# How brackets nest

Tokens are read one piece at a time. This module says what one piece does to what has been read,
and what holds at every point of a reading: a bracket with a partner is the partner of its partner,
and whatever stands between the two has its partner between them, too.

* §1 `Reading.take`, one piece, and `Reading.takeAll`, several.
* §2 `tokensIn`, the tokens among some pieces with their places, partners left out.
* §3 `Reading.Nested`, the invariant, and `TokenSequence.Nested`, what becomes of it at the end.
-/

namespace Crosslink.Source

/-! ## 1. Reading piece by piece -/

namespace Reading

/-- What has been read after one more piece, which stands at a byte offset. -/
def take (r : Reading) (offset : Nat) (p : Piece) : Option Reading :=
  match p.kind with
  | .broken _ => none
  | .doc => some { r with docs := ⟨offset, offset + Text.width p.text⟩ :: r.docs }
  | .token kind => (r.token kind ⟨offset, offset + Text.width p.text⟩ p.text).toOption
  | _ => some r

/-- What has been read after some more pieces. -/
def takeAll (r : Reading) (offset : Nat) : List Piece → Option Reading
  | [] => some r
  | p :: ps => (r.take offset p).bind fun r => r.takeAll (offset + Text.width p.text) ps

/-- The number of bytes of some pieces. -/
def extent (ps : List Piece) : Nat := Text.width (ps.flatMap Piece.text)

end Reading

theorem extent_cons (p : Piece) (ps : List Piece) :
    Reading.extent (p :: ps) = Text.width p.text + Reading.extent ps := by
  simp [Reading.extent]

theorem extent_append (ps qs : List Piece) :
    Reading.extent (ps ++ qs) = Reading.extent ps + Reading.extent qs := by
  simp [Reading.extent]

theorem takeAll_append (r : Reading) (offset : Nat) (ps qs : List Piece) :
    r.takeAll offset (ps ++ qs) =
      (r.takeAll offset ps).bind fun r => r.takeAll (offset + Reading.extent ps) qs := by
  induction ps generalizing r offset with
  | nil => simp [Reading.takeAll, Reading.extent]
  | cons p ps ih =>
    simp only [List.cons_append, Reading.takeAll, Option.bind_assoc, ih, extent_cons,
      Nat.add_assoc]

theorem toOption_readPieces (source : Text) (offset : Nat) (r : Reading) (ps : List Piece) :
    (readPieces source offset r ps).toOption =
      (r.takeAll offset ps).bind fun r =>
        if r.opened = [] then some ⟨r.tokens, r.docs.reverse⟩ else none := by
  induction ps generalizing r offset with
  | nil =>
    simp only [readPieces, Reading.takeAll, Option.bind_some]
    split
    · rename_i h
      simp [h]
      rfl
    · rename_i h
      simp [h]
      rfl
  | cons p ps ih =>
    simp only [readPieces, Reading.takeAll, Reading.take]
    cases hk : p.kind with
    | broken d => rfl
    | doc => simp only [ih, Option.bind_some]
    | token kind =>
      simp only
      cases r.token kind ⟨offset, offset + Text.width p.text⟩ p.text with
      | error e => rfl
      | ok r => simp only [ih]; rfl
    | blank => simp only [ih, Option.bind_some]
    | comment => simp only [ih, Option.bind_some]
    | markup => simp only [ih, Option.bind_some]

/-- A source is read when every piece is and no bracket is left open. -/
theorem tokenize_eq_ok {source : Text} {l : TokenSequence} :
    tokenize source = .ok l ↔
      ∃ r, ({} : Reading).takeAll 0 (cut source) = some r ∧ r.opened = [] ∧
        l = ⟨r.tokens, r.docs.reverse⟩ := by
  have h := toOption_readPieces source 0 {} (cut source)
  constructor
  · intro hl
    rw [tokenize] at hl
    rw [hl] at h
    obtain ⟨r, hr, hopened⟩ := Option.bind_eq_some_iff.mp h.symm
    split at hopened
    · rename_i hnil
      exact ⟨r, hr, hnil, (Option.some.inj hopened).symm⟩
    · cases hopened
  · rintro ⟨r, hr, hnil, rfl⟩
    rw [hr, Option.bind_some, if_pos hnil] at h
    rw [tokenize]
    cases hread : readPieces source 0 {} (cut source) with
    | error e =>
      rw [hread] at h
      cases h
    | ok l =>
      rw [hread] at h
      exact congrArg Except.ok (Option.some.inj h)

/-! ## 2. The tokens among some pieces -/

/-- The token that a piece at a byte offset is, its partner left out. -/
def tokenAt (offset : Nat) (p : Piece) : Option Token :=
  match p.kind with
  | .token kind => some ⟨kind, ⟨offset, offset + Text.width p.text⟩, p.text, none⟩
  | _ => none

/-- The tokens among some pieces, the first of which stands at a byte offset. -/
def tokensIn (offset : Nat) : List Piece → List Token
  | [] => []
  | p :: ps => (tokenAt offset p).toList ++ tokensIn (offset + Text.width p.text) ps

/-- A token without its partner. -/
def Token.bare (t : Token) : Token := { t with partner := none }

theorem tokensIn_append (offset : Nat) (ps qs : List Piece) :
    tokensIn offset (ps ++ qs) = tokensIn offset ps ++ tokensIn (offset + Reading.extent ps) qs := by
  induction ps generalizing offset with
  | nil => simp [tokensIn, Reading.extent]
  | cons p ps ih =>
    simp only [List.cons_append, tokensIn, ih, extent_cons, List.append_assoc, Nat.add_assoc]

/-- The documentation comments among some pieces. -/
def docsIn (offset : Nat) : List Piece → List Span
  | [] => []
  | p :: ps =>
    (if p.kind = .doc then [⟨offset, offset + Text.width p.text⟩] else [])
      ++ docsIn (offset + Text.width p.text) ps

theorem docsIn_append (offset : Nat) (ps qs : List Piece) :
    docsIn offset (ps ++ qs) = docsIn offset ps ++ docsIn (offset + Reading.extent ps) qs := by
  induction ps generalizing offset with
  | nil => simp [docsIn, Reading.extent]
  | cons p ps ih =>
    simp only [List.cons_append, docsIn, ih, extent_cons, List.append_assoc, Nat.add_assoc]

namespace Reading

/-- What becomes of a reading with one more token: a token that is no bracket or opens one is added
to those read, and one that closes a bracket becomes the partner of the one opened last. -/
inductive Adds (r : Reading) (t : Token) : Reading → Prop
  | plain (opens : t.kind.opens = false) (closes : t.kind.closes = none) : Adds r t (r.push t)
  | opening (opens : t.kind.opens = true) :
      Adds r t { r.push t with opened := (r.tokens.size, t) :: r.opened }
  | closing {openers : List TokenKind} {i : Nat} {o : Token} {rest : List (Nat × Token)}
      (opens : t.kind.opens = false) (closes : t.kind.closes = some openers)
      (opened : r.opened = (i, o) :: rest) (pairs : openers.contains o.kind = true) :
      Adds r t
        { r with
          tokens := (r.tokens.modify i fun o => { o with partner := some r.tokens.size }).push
            { t with partner := some i }
          opened := rest }

theorem token_eq_some {r r' : Reading} {kind : TokenKind} {span : Span} {text : Text} :
    (r.token kind span text).toOption = some r' ↔ Adds r ⟨kind, span, text, none⟩ r' := by
  constructor
  · intro h
    unfold Reading.token at h
    simp only at h
    split at h
    · rename_i hopens
      cases h
      exact .opening hopens
    · rename_i hopens
      have hopens : kind.opens = false := by simpa using hopens
      split at h
      · rename_i hcloses
        cases h
        exact .plain hopens hcloses
      · rename_i openers hcloses
        split at h
        · cases h
        · rename_i i o rest hopened
          split at h
          · rename_i hpairs
            cases h
            exact .closing hopens hcloses hopened hpairs
          · cases h
  · intro h
    unfold Reading.token
    cases h with
    | plain hopens hcloses =>
      simp only at hopens hcloses
      simp [hopens, hcloses, Except.toOption]
    | opening hopens =>
      simp only at hopens
      simp [hopens, Except.toOption]
    | closing hopens hcloses hopened hpairs =>
      simp only at hopens hcloses
      simp only [hopens, Bool.false_eq_true, if_false, hcloses, hopened, hpairs, if_true]
      rfl

theorem map_bare_modify (ts : List Token) (i : Nat) (q : Option Nat) :
    (ts.modify i fun o => { o with partner := q }).map Token.bare = ts.map Token.bare := by
  refine List.ext_getElem? fun j => ?_
  simp only [List.getElem?_map, List.getElem?_modify]
  cases ts[j]? with
  | none => rfl
  | some t => by_cases h : i = j <;> simp [h, Token.bare]

theorem bare_of_adds {r r' : Reading} {t : Token} (h : Adds r t r') (ht : t.partner = none) :
    r'.tokens.toList.map Token.bare = r.tokens.toList.map Token.bare ++ [t] := by
  have hbare : t.bare = t := by rw [Token.bare, ← ht]
  cases h with
  | plain => simp [Reading.push, hbare]
  | opening => simp [Reading.push, hbare]
  | closing _ _ _ _ =>
    simp only [Array.toList_push, Array.toList_modify, List.map_append, map_bare_modify]
    simpa [Token.bare] using hbare

theorem bare_of_take {r r' : Reading} {offset : Nat} {p : Piece} (h : r.take offset p = some r') :
    r'.tokens.toList.map Token.bare
        = r.tokens.toList.map Token.bare ++ (tokenAt offset p).toList ∧
      r'.docs = (docsIn offset [p]).reverse ++ r.docs := by
  unfold take at h
  unfold tokenAt docsIn
  split at h
  · cases h
  · rename_i hk
    cases h
    simp [hk, docsIn]
  · rename_i kind hk
    rw [token_eq_some] at h
    refine ⟨by simpa [hk] using bare_of_adds h rfl, ?_⟩
    cases h <;> simp [hk, docsIn, Reading.push]
  · rename_i h1 h2 h3
    cases h
    have hdoc : p.kind ≠ .doc := h2
    cases hk : p.kind <;> simp_all [docsIn]

/-- The tokens of some pieces are added to those read, and so are the documentation comments. -/
theorem bare_of_takeAll {r r' : Reading} {offset : Nat} {ps : List Piece}
    (h : r.takeAll offset ps = some r') :
    r'.tokens.toList.map Token.bare = r.tokens.toList.map Token.bare ++ tokensIn offset ps ∧
      r'.docs = (docsIn offset ps).reverse ++ r.docs := by
  induction ps generalizing r offset with
  | nil =>
    cases h
    simp [tokensIn, docsIn]
  | cons p ps ih =>
    obtain ⟨r₁, h₁, h⟩ := Option.bind_eq_some_iff.mp h
    obtain ⟨htokens, hdocs⟩ := ih h
    obtain ⟨htokens₁, hdocs₁⟩ := bare_of_take h₁
    refine ⟨by rw [htokens, htokens₁, tokensIn, List.append_assoc], ?_⟩
    have hcons : docsIn offset (p :: ps)
        = docsIn offset [p] ++ docsIn (offset + Text.width p.text) ps := by
      have := docsIn_append offset [p] ps
      simpa [extent] using this
    rw [hdocs, hdocs₁, hcons, List.reverse_append, List.append_assoc]

end Reading

/-- The tokens of a source are those of its pieces. -/
theorem bare_of_tokenize {source : Text} {l : TokenSequence} (h : tokenize source = .ok l) :
    l.tokens.toList.map Token.bare = tokensIn 0 (cut source) ∧ l.docs = docsIn 0 (cut source) := by
  obtain ⟨r, hr, -, rfl⟩ := tokenize_eq_ok.mp h
  obtain ⟨htokens, hdocs⟩ := Reading.bare_of_takeAll hr
  exact ⟨by simpa using htokens, by simpa using congrArg List.reverse hdocs⟩

/-! ## 3. Brackets and their partners -/

/-- True when a bracket of the second kind closes one of the first. -/
def TokenKind.Pairs (o c : TokenKind) : Prop :=
  o.opens = true ∧ c.opens = false ∧ ∃ openers, c.closes = some openers ∧ openers.contains o = true

/-- What holds at every point of a reading. -/
structure Reading.Nested (r : Reading) : Prop where
  /-- The brackets still open stand innermost first. -/
  order : r.opened.Pairwise fun a b => b.1 < a.1
  /-- They have no partner yet. -/
  opened : ∀ x ∈ r.opened, ∃ t : Token, r.tokens[x.1]? = some t ∧ t.kind = x.2.kind ∧
    t.kind.opens = true ∧ t.partner = none
  /-- Every other bracket has one. -/
  waiting : ∀ (i : Nat) (t : Token), r.tokens[i]? = some t → t.partner = none →
    t.kind.closes = none ∧ (t.kind.opens = true → ∃ o, (i, o) ∈ r.opened)
  /-- A bracket is the partner of its partner. -/
  pair : ∀ (i : Nat) (t : Token) (j : Nat), r.tokens[i]? = some t → t.partner = some j →
    ∃ u : Token, r.tokens[j]? = some u ∧ u.partner = some i ∧
      ((i < j ∧ t.kind.Pairs u.kind) ∨ (j < i ∧ u.kind.Pairs t.kind))
  /-- What stands between partners is closed there. -/
  inside : ∀ (i : Nat) (t : Token) (j : Nat), r.tokens[i]? = some t → t.partner = some j → i < j →
    ∀ (m : Nat) (u : Token), i < m → m < j → r.tokens[m]? = some u →
      (∀ x ∈ r.opened, x.1 ≠ m) ∧ ∀ q, u.partner = some q → i < q ∧ q < j

namespace Reading

theorem Nested.empty : Nested {} where
  order := .nil
  opened := by simp
  waiting := by simp
  pair := by simp
  inside := by simp

theorem Nested.lt_size {r : Reading} (h : r.Nested) {x : Nat × Token} (hx : x ∈ r.opened) :
    x.1 < r.tokens.size := by
  obtain ⟨t, ht, -⟩ := h.opened x hx
  exact (Array.getElem?_eq_some_iff.mp ht).1

theorem getElem?_push_eq_some {ts : Array Token} {t u : Token} {i : Nat} :
    (ts.push t)[i]? = some u ↔ ts[i]? = some u ∨ (i = ts.size ∧ u = t) := by
  rw [Array.getElem?_push]
  by_cases h : i = ts.size
  · subst h
    simp [eq_comm]
  · simp [h]

/-- The partner of a token read is read, too. -/
theorem Nested.partner_lt {r : Reading} (h : r.Nested) {i j : Nat} {t : Token}
    (ht : r.tokens[i]? = some t) (hp : t.partner = some j) : j < r.tokens.size := by
  obtain ⟨u, hu, -⟩ := h.pair i t j ht hp
  exact (Array.getElem?_eq_some_iff.mp hu).1

theorem Nested.push {r : Reading} (h : r.Nested) {t : Token} (ht : t.partner = none)
    (opens : t.kind.opens = false) (closes : t.kind.closes = none) : (r.push t).Nested where
  order := h.order
  opened := by
    intro x hx
    obtain ⟨u, hu, hrest⟩ := h.opened x hx
    exact ⟨u, getElem?_push_eq_some.mpr (Or.inl hu), hrest⟩
  waiting := by
    intro i u hi hu
    rcases getElem?_push_eq_some.mp hi with hi | ⟨-, rfl⟩
    · exact h.waiting i u hi hu
    · exact ⟨closes, fun hopens => by simp [opens] at hopens⟩
  pair := by
    intro i u j hi hu
    rcases getElem?_push_eq_some.mp hi with hi | ⟨-, rfl⟩
    · obtain ⟨v, hv, hrest⟩ := h.pair i u j hi hu
      exact ⟨v, getElem?_push_eq_some.mpr (Or.inl hv), hrest⟩
    · simp [ht] at hu
  inside := by
    intro i u j hi hu hij m v him hmj hm
    rcases getElem?_push_eq_some.mp hi with hi | ⟨-, rfl⟩
    · have hj := h.partner_lt hi hu
      rcases getElem?_push_eq_some.mp hm with hm | ⟨rfl, -⟩
      · exact h.inside i u j hi hu hij m v him hmj hm
      · omega
    · simp [ht] at hu

theorem Nested.open {r : Reading} (h : r.Nested) {t : Token} (ht : t.partner = none)
    (opens : t.kind.opens = true) :
    Nested { r.push t with opened := (r.tokens.size, t) :: r.opened } where
  order := List.pairwise_cons.mpr ⟨fun x hx => h.lt_size hx, h.order⟩
  opened := by
    intro x hx
    rcases List.mem_cons.mp hx with rfl | hx
    · exact ⟨t, getElem?_push_eq_some.mpr (Or.inr ⟨rfl, rfl⟩), rfl, opens, ht⟩
    · obtain ⟨u, hu, hrest⟩ := h.opened x hx
      exact ⟨u, getElem?_push_eq_some.mpr (Or.inl hu), hrest⟩
  waiting := by
    intro i u hi hu
    rcases getElem?_push_eq_some.mp hi with hi | ⟨rfl, rfl⟩
    · obtain ⟨hcloses, hwaits⟩ := h.waiting i u hi hu
      refine ⟨hcloses, fun hopens => ?_⟩
      obtain ⟨o, ho⟩ := hwaits hopens
      exact ⟨o, List.mem_cons_of_mem _ ho⟩
    · refine ⟨?_, fun _ => ⟨u, List.mem_cons_self⟩⟩
      cases hk : u.kind <;> simp [hk, TokenKind.opens] at opens <;> rfl
  pair := by
    intro i u j hi hu
    rcases getElem?_push_eq_some.mp hi with hi | ⟨-, rfl⟩
    · obtain ⟨v, hv, hrest⟩ := h.pair i u j hi hu
      exact ⟨v, getElem?_push_eq_some.mpr (Or.inl hv), hrest⟩
    · simp [ht] at hu
  inside := by
    intro i u j hi hu hij m v him hmj hm
    rcases getElem?_push_eq_some.mp hi with hi | ⟨-, rfl⟩
    · have hj := h.partner_lt hi hu
      rcases getElem?_push_eq_some.mp hm with hm | ⟨rfl, -⟩
      · obtain ⟨hopened, hclosed⟩ := h.inside i u j hi hu hij m v him hmj hm
        refine ⟨fun x hx => ?_, hclosed⟩
        rcases List.mem_cons.mp hx with rfl | hx
        · exact fun he => by
            have := (Array.getElem?_eq_some_iff.mp hm).1
            omega
        · exact hopened x hx
      · omega
    · simp [ht] at hu

/-- The tokens read when the bracket at `i` gets its partner. -/
theorem getElem?_close {ts : Array Token} {t u : Token} {i j : Nat} :
    ((ts.modify i fun o => { o with partner := some ts.size }).push t)[j]? = some u ↔
      (j = ts.size ∧ u = t) ∨ (j ≠ i ∧ ts[j]? = some u) ∨
        (j = i ∧ ∃ o, ts[i]? = some o ∧ u = { o with partner := some ts.size }) := by
  rw [getElem?_push_eq_some, Array.size_modify, Array.getElem?_modify]
  by_cases h : i = j
  · subst h
    simp only [if_true, Option.map_eq_some_iff]
    constructor
    · rintro (⟨o, ho, rfl⟩ | h)
      · exact Or.inr (Or.inr ⟨trivial, o, ho, rfl⟩)
      · exact Or.inl h
    · rintro (h | ⟨h, -⟩ | ⟨-, o, ho, rfl⟩)
      · exact Or.inr h
      · exact absurd rfl h
      · exact Or.inl ⟨o, ho, rfl⟩
  · have h' : j ≠ i := fun he => h he.symm
    simp [h, h', or_comm]

theorem Nested.close {r : Reading} (h : r.Nested) {t : Token} {openers : List TokenKind} {i : Nat}
    {o : Token} {rest : List (Nat × Token)} (opens : t.kind.opens = false)
    (closes : t.kind.closes = some openers) (hopened : r.opened = (i, o) :: rest)
    (pairs : openers.contains o.kind = true) :
    Nested { r with
      tokens := (r.tokens.modify i fun o => { o with partner := some r.tokens.size }).push
        { t with partner := some i }
      opened := rest } := by
  have hi : (i, o) ∈ r.opened := by simp [hopened]
  obtain ⟨b, hb, hbkind, hbopens, hbpartner⟩ := h.opened _ hi
  have hilt : i < r.tokens.size := h.lt_size hi
  have hrest : ∀ x ∈ rest, x ∈ r.opened ∧ x.1 < i := by
    intro x hx
    have horder := h.order
    rw [hopened] at horder
    exact ⟨by rw [hopened]; exact List.mem_cons_of_mem _ hx, List.rel_of_pairwise_cons horder hx⟩
  have hpairs : b.kind.Pairs t.kind := ⟨hbopens, opens, openers, closes, by rw [hbkind]; exact pairs⟩
  -- no pair reaches over the bracket that is still open
  have hclear : ∀ j u q, r.tokens[j]? = some u → u.partner = some q → j < i → i < q → False := by
    intro j u q hj hu hji hiq
    exact (h.inside j u q hj hu (by omega) i b hji hiq hb).1 _ hi rfl
  refine ⟨?_, ?_, ?_, ?_, ?_⟩
  · have horder := h.order
    rw [hopened] at horder
    exact horder.of_cons
  · intro x hx
    obtain ⟨hx', hlt⟩ := hrest x hx
    obtain ⟨u, hu, hrest⟩ := h.opened x hx'
    exact ⟨u, getElem?_close.mpr (Or.inr (Or.inl ⟨by omega, hu⟩)), hrest⟩
  · intro j u hj hu
    rcases getElem?_close.mp hj with ⟨-, rfl⟩ | ⟨hne, hj⟩ | ⟨-, v, -, rfl⟩
    · simp at hu
    · obtain ⟨hcloses, hwaits⟩ := h.waiting j u hj hu
      refine ⟨hcloses, fun hopens => ?_⟩
      obtain ⟨v, hv⟩ := hwaits hopens
      rw [hopened] at hv
      rcases List.mem_cons.mp hv with hv | hv
      · exact absurd (congrArg Prod.fst hv) hne
      · exact ⟨v, hv⟩
    · simp at hu
  · intro j u q hj hu
    rcases getElem?_close.mp hj with ⟨rfl, rfl⟩ | ⟨hne, hj⟩ | ⟨rfl, v, hv, rfl⟩
    · obtain rfl : i = q := by simpa using hu
      refine ⟨_, getElem?_close.mpr (Or.inr (Or.inr ⟨rfl, b, hb, rfl⟩)), rfl, Or.inr ⟨hilt, hpairs⟩⟩
    · obtain ⟨v, hv, hback, horder⟩ := h.pair j u q hj hu
      have hqi : q ≠ i := by
        rintro rfl
        rw [hb] at hv
        cases hv
        simp [hbpartner] at hback
      exact ⟨v, getElem?_close.mpr (Or.inr (Or.inl ⟨hqi, hv⟩)), hback, horder⟩
    · obtain rfl : r.tokens.size = q := by simpa using hu
      rw [hb] at hv
      cases hv
      exact ⟨_, getElem?_close.mpr (Or.inl ⟨rfl, rfl⟩), rfl, Or.inl ⟨hilt, hpairs⟩⟩
  · intro j u q hj hu hjq m v hjm hmq hm
    have hmlt : m < r.tokens.size := by
      rcases getElem?_close.mp hj with ⟨rfl, rfl⟩ | ⟨-, hj⟩ | ⟨rfl, w, -, rfl⟩
      · have : i = q := by simpa using hu
        omega
      · have := h.partner_lt hj hu
        omega
      · have : r.tokens.size = q := by simpa using hu
        omega
    rcases getElem?_close.mp hj with ⟨rfl, rfl⟩ | ⟨hne, hj'⟩ | ⟨rfl, w, -, rfl⟩
    · have : i = q := by simpa using hu
      omega
    · rcases getElem?_close.mp hm with ⟨rfl, -⟩ | ⟨-, hm'⟩ | ⟨rfl, -⟩
      · omega
      · obtain ⟨hopened, hclosed⟩ := h.inside j u q hj' hu hjq m v hjm hmq hm'
        exact ⟨fun x hx => hopened x (hrest x hx).1, hclosed⟩
      · exact absurd hmq fun hmq => hclear j u q hj' hu hjm hmq
    · obtain rfl : r.tokens.size = q := by simpa using hu
      rcases getElem?_close.mp hm with ⟨rfl, -⟩ | ⟨-, hm⟩ | ⟨rfl, -⟩
      · omega
      · refine ⟨fun x hx he => by have := (hrest x hx).2; omega, fun q hq => ?_⟩
        obtain ⟨w, hw, hback, -⟩ := h.pair m v q hm hq
        refine ⟨Nat.lt_of_not_le fun hle => ?_, h.partner_lt hm hq⟩
        rcases Nat.lt_or_eq_of_le hle with hlt | rfl
        · exact hclear q w m hw hback hlt hjm
        · rw [hb] at hw
          cases hw
          simp [hbpartner] at hback
      · omega

theorem Nested.adds {r r' : Reading} (h : r.Nested) {t : Token} (ht : t.partner = none)
    (hr : Adds r t r') : r'.Nested := by
  cases hr with
  | plain opens closes => exact h.push ht opens closes
  | opening opens => exact h.open ht opens
  | closing opens closes hopened pairs => exact h.close opens closes hopened pairs

theorem Nested.take {r r' : Reading} (h : r.Nested) {offset : Nat} {p : Piece}
    (hr : r.take offset p = some r') : r'.Nested := by
  unfold Reading.take at hr
  split at hr
  · cases hr
  · cases hr
    exact ⟨h.order, h.opened, h.waiting, h.pair, h.inside⟩
  · exact h.adds rfl (token_eq_some.mp hr)
  · cases hr
    exact h

theorem Nested.takeAll {r r' : Reading} (h : r.Nested) {offset : Nat} {ps : List Piece}
    (hr : r.takeAll offset ps = some r') : r'.Nested := by
  induction ps generalizing r offset with
  | nil =>
    cases hr
    exact h
  | cons p ps ih =>
    obtain ⟨r₁, h₁, hr⟩ := Option.bind_eq_some_iff.mp hr
    exact ih (h.take h₁) hr

end Reading

namespace TokenSequence

/-- How the brackets of a source pair. -/
structure Nested (l : TokenSequence) : Prop where
  /-- Every bracket has a partner. -/
  partnered : ∀ (i : Nat) (t : Token), l.tokens[i]? = some t →
    t.kind.opens = true ∨ t.kind.closes ≠ none → ∃ j, t.partner = some j
  /-- A bracket is the partner of its partner. -/
  pair : ∀ (i : Nat) (t : Token) (j : Nat), l.tokens[i]? = some t → t.partner = some j →
    ∃ u : Token, l.tokens[j]? = some u ∧ u.partner = some i ∧
      ((i < j ∧ t.kind.Pairs u.kind) ∨ (j < i ∧ u.kind.Pairs t.kind))
  /-- What stands between partners is closed there. -/
  inside : ∀ (i : Nat) (t : Token) (j : Nat), l.tokens[i]? = some t → t.partner = some j → i < j →
    ∀ (m : Nat) (u : Token) (q : Nat), i < m → m < j → l.tokens[m]? = some u →
      u.partner = some q → i < q ∧ q < j

end TokenSequence

/-- The brackets of every source that can be read pair and nest. -/
theorem nested_of_tokenize {source : Text} {l : TokenSequence} (h : tokenize source = .ok l) :
    l.Nested := by
  obtain ⟨r, hr, hnil, rfl⟩ := tokenize_eq_ok.mp h
  have hr := Reading.Nested.empty.takeAll hr
  refine ⟨?_, hr.pair, ?_⟩
  · intro i t ht hbracket
    cases hp : t.partner with
    | some j => exact ⟨j, rfl⟩
    | none =>
      obtain ⟨hcloses, hwaits⟩ := hr.waiting i t ht hp
      rcases hbracket with hopens | hcloses'
      · obtain ⟨o, ho⟩ := hwaits hopens
        simp [hnil] at ho
      · exact absurd hcloses hcloses'
  · intro i t j hi ht hij m u q him hmj hm hu
    exact (hr.inside i t j hi ht hij m u him hmj hm).2 q hu

/-! ## 4. Where tokens stand -/

theorem getElem?_tokensIn {ps : List Piece} {offset i : Nat} {t : Token}
    (h : (tokensIn offset ps)[i]? = some t) :
    ∃ P p Q, ps = P ++ p :: Q ∧ tokenAt (offset + Reading.extent P) p = some t ∧
      (tokensIn offset P).length = i := by
  induction ps generalizing offset i with
  | nil => simp [tokensIn] at h
  | cons p ps ih =>
    rw [tokensIn] at h
    cases hp : tokenAt offset p with
    | none =>
      rw [hp] at h
      obtain ⟨P, q, Q, rfl, hq, hlen⟩ := ih (by simpa using h)
      exact ⟨p :: P, q, Q, rfl, by rw [extent_cons, ← Nat.add_assoc]; exact hq,
        by simpa [tokensIn, hp] using hlen⟩
    | some u =>
      rw [hp] at h
      cases i with
      | zero =>
        obtain rfl : u = t := by simpa using h
        exact ⟨[], p, ps, rfl, by simpa [Reading.extent] using hp, rfl⟩
      | succ i =>
        obtain ⟨P, q, Q, rfl, hq, hlen⟩ := ih (by simpa using h)
        exact ⟨p :: P, q, Q, rfl, by rw [extent_cons, ← Nat.add_assoc]; exact hq,
          by simpa [tokensIn, hp] using hlen⟩

/-- The tokens among some pieces lie within them. -/
theorem span_of_mem_tokensIn {ps : List Piece} {offset : Nat} {t : Token}
    (h : t ∈ tokensIn offset ps) :
    offset ≤ t.span.start ∧ t.span.start + Text.width t.text = t.span.stop ∧
      t.span.stop ≤ offset + Reading.extent ps := by
  obtain ⟨i, hi⟩ := List.getElem?_of_mem h
  obtain ⟨P, p, Q, rfl, hp, -⟩ := getElem?_tokensIn hi
  unfold tokenAt at hp
  split at hp
  · cases hp
    rw [extent_append, extent_cons]
    refine ⟨Nat.le_add_right _ _, rfl, ?_⟩
    dsimp only
    omega
  · cases hp

/-- A token of a source, with the pieces before and after it. -/
theorem exists_pieces {source : Text} {l : TokenSequence} (h : tokenize source = .ok l) {i : Nat}
    {t : Token} (ht : l.tokens[i]? = some t) :
    ∃ P p Q, cut source = P ++ p :: Q ∧ p.kind = .token t.kind ∧ p.text = t.text ∧
      t.span = ⟨Reading.extent P, Reading.extent P + Text.width t.text⟩ ∧
      (tokensIn 0 P).length = i := by
  have hbare : (tokensIn 0 (cut source))[i]? = some t.bare := by
    rw [← (bare_of_tokenize h).1, List.getElem?_map, Array.getElem?_toList, ht]
    rfl
  obtain ⟨P, p, Q, hcut, hp, hlen⟩ := getElem?_tokensIn hbare
  refine ⟨P, p, Q, hcut, ?_⟩
  unfold tokenAt at hp
  split at hp
  · rename_i kind hk
    obtain ⟨hkind, hspan, htext, -⟩ := Token.mk.inj (Option.some.inj hp)
    rw [Nat.zero_add, htext] at hspan
    exact ⟨by rw [hk, hkind], htext, hspan.symm, hlen⟩
  · cases hp

end Crosslink.Source
