import Crosslink.Proofs.Changes
import Crosslink.Proofs.Entries

/-!
# Chains as pieces

A chain is a row of calls, each an arrow, a name and a list in parentheses. What is read of a chain
is told by its pieces and by the place where it begins, and by nothing else of the source.

* §1 `ChainCall`, a chained call as pieces.
* §2 `callOf_of_cut`, what is read of it.
* §3 `exists_chain`, every chain is a row of such calls.
* §4 `chain_of_cut`, what is read of a row of calls.
-/

namespace Crosslink.FluentChain

open Source Source.TokenSequence

variable {source : Text} {l : TokenSequence} {A M Q R g t : List Piece} {p q : Piece}

/-! ## 1. Calls as pieces -/

/-- The target that an item names. -/
def itemTarget (imports : Imports) (e : ListEntry) : Option Target :=
  argumentTarget imports ⟨Span.point 0, e.item.flatMap Piece.text⟩

/-- A chained call: what stands before its arrow, the arrow, its name and its list. -/
structure ChainCall where
  lead : List Piece
  arrow : Text
  inner : List Piece
  name : Text
  outer : List Piece
  opener : Text
  entries : List ListEntry
  rest : List Piece
  closer : Text
  lead_gap : kindsIn lead = []
  inner_gap : kindsIn inner = []
  outer_gap : kindsIn outer = []
  listed : Entries true entries
  commas : Commas rest
  ends : ∀ p ∈ lead ++ inner ++ outer ++ (entries.flatMap ListEntry.pieces ++ rest), ∀ d,
    p.kind ≠ .broken d

namespace ChainCall

/-- What stands in the parentheses. -/
def body (c : ChainCall) : List Piece := c.entries.flatMap ListEntry.pieces ++ c.rest

/-- The pieces up to the opening parenthesis. -/
def head (c : ChainCall) : List Piece :=
  c.lead ++ ⟨.token .arrow, c.arrow⟩ :: (c.inner ++ ⟨.token .name, c.name⟩ ::
    (c.outer ++ [⟨.token .openParen, c.opener⟩]))

/-- All pieces of a call. -/
def pieces (c : ChainCall) : List Piece := c.head ++ (c.body ++ [⟨.token .closeParen, c.closer⟩])

/-- Where the name of a call begins, as a distance from the start of its first piece. -/
def nameAt (c : ChainCall) : Nat := Reading.extent c.lead + Text.width c.arrow + Reading.extent c.inner

/-- The targets that the items of a call name. -/
def targets (imports : Imports) (c : ChainCall) : List (Option Target) :=
  c.entries.map (itemTarget imports)

/-- What is read of a call whose first piece stands at an offset. -/
def read (imports : Imports) (offset : Nat) (c : ChainCall) : Call :=
  { name := c.name
    nameSpan := ⟨offset + c.nameAt, offset + c.nameAt + Text.width c.name⟩
    gap := ⟨offset, offset + Reading.extent c.lead⟩
    stop := offset + Reading.extent c.pieces
    arguments := argumentsOf (offset + Reading.extent c.head) c.entries
    targets := c.targets imports }

theorem block (c : ChainCall) : Block c.body := by
  refine ⟨fun p hp => c.ends p (List.mem_append_right _ hp), ?_⟩
  rw [body, kindsIn_append, settle_append, settle_of_entries c.listed]
  exact settle_of_commas c.commas _

theorem bracketed (c : ChainCall) :
    Bracketed ⟨.token .openParen, c.opener⟩ c.body ⟨.token .closeParen, c.closer⟩ :=
  ⟨⟨.openParen, .closeParen, rfl, rfl, rfl, rfl, [.openParen], rfl, rfl⟩, c.block⟩

theorem countIn_token (kind : TokenKind) (text : Text) (ps : List Piece) :
    countIn (⟨.token kind, text⟩ :: ps) = countIn ps + 1 := by
  rw [← List.singleton_append, countIn_append, countIn_singleton rfl]
  omega

theorem countIn_head (c : ChainCall) : countIn c.head = 3 := by
  simp [head, countIn_append, countIn_token, countIn_of_kinds c.lead_gap, countIn_of_kinds c.inner_gap,
    countIn_of_kinds c.outer_gap, countIn_of_kinds (g := []) rfl]

theorem countIn_pieces (c : ChainCall) : countIn c.pieces = countIn c.body + 4 := by
  rw [pieces, countIn_append, countIn_append, countIn_head, countIn_singleton rfl]
  omega

theorem closes_pieces (c : ChainCall) : Closes c.pieces :=
  ⟨_, _, (List.append_assoc _ _ _).symm, rfl⟩

theorem kindsIn_head (c : ChainCall) : kindsIn c.head = [.arrow, .name, .openParen] := by
  rw [head, kindsIn_append, c.lead_gap, kindsIn_of_token rfl, kindsIn_append, c.inner_gap,
    kindsIn_of_token rfl, kindsIn_append, c.outer_gap, kindsIn_of_token rfl]
  rfl

end ChainCall

/-! ## 2. What is read of a call -/

theorem targets_of_entries (imports : Imports) (k : Nat) (es : List ListEntry) :
    (argumentsOf k es).map (argumentTarget imports) = es.map (itemTarget imports) := by
  induction es generalizing k with
  | nil => rfl
  | cons e es ih =>
    rw [argumentsOf, List.map_cons, ih, List.map_cons, itemTarget, argumentTarget, argumentTarget]

/-- A call among the pieces of a source is one of its calls. -/
theorem isCall_of_cut (hl : tokenize source = .ok l) {c : ChainCall}
    (hcut : Source.cut source = A ++ (c.pieces ++ Q)) :
    IsCall l (countIn A) (countIn A + countIn c.pieces - 1) := by
  have hkinds : ∀ j, j < 3 → l.kindAt (countIn A + j) = [TokenKind.arrow, .name, .openParen][j]? := by
    intro j hj
    rw [← kindsIn_eq (M := c.head) (Q := c.body ++ [⟨.token .closeParen, c.closer⟩] ++ Q) hl
      (by rw [hcut, ChainCall.pieces]; simp) (by rw [c.countIn_head]; exact hj), c.kindsIn_head]
  refine ⟨?_, ?_, ?_, ?_⟩
  · rw [isKind_of_kindAt (i := countIn A) (hkinds 0 (by omega))]
    rfl
  · rw [isKind_of_kindAt (hkinds 1 (by omega))]
    rfl
  · rw [isKind_of_kindAt (hkinds 2 (by omega))]
    rfl
  · have hpartner := partnerAt_of_cut (A := A ++ (c.lead ++ ⟨.token .arrow, c.arrow⟩ :: (c.inner ++
      ⟨.token .name, c.name⟩ :: c.outer))) (Q := Q) hl
      (by rw [hcut, ChainCall.pieces, ChainCall.head]; simp) c.bracketed
    have hcount : countIn (c.lead ++ ⟨.token .arrow, c.arrow⟩ :: (c.inner ++
        ⟨.token .name, c.name⟩ :: c.outer)) = 2 := by
      simp [countIn_append, ChainCall.countIn_token, countIn_of_kinds c.lead_gap,
        countIn_of_kinds c.inner_gap, countIn_of_kinds c.outer_gap]
    rw [countIn_append, hcount] at hpartner
    rw [hpartner, c.countIn_pieces]
    exact congrArg some (by omega)

/-- The end of the token before a place. -/
theorem stopAt_of_closes (hl : tokenize source = .ok l) (hcut : Source.cut source = A ++ R)
    (hA : Closes A) : l.stopAt (countIn A - 1) = Reading.extent A ∧ countIn A ≠ 0 := by
  obtain ⟨A₀, p, rfl, hp⟩ := hA.last
  obtain ⟨t, ht, -, -, hspan⟩ := exists_token_of_cut hl (A := A₀) (Q := R) (by simpa using hcut) hp
  rw [countIn_append, countIn_singleton hp, Nat.add_sub_cancel, stopAt, ht]
  refine ⟨?_, by omega⟩
  rw [Option.map_some, hspan, extent_append]
  simp [Reading.extent]

/-- What is read of a call is told by its pieces and the place where they stand. -/
theorem callOf_of_cut (hl : tokenize source = .ok l) {c : ChainCall}
    (hcut : Source.cut source = A ++ (c.pieces ++ Q)) (hA : Closes A) (imports : Imports) :
    callOf l source imports (countIn A) (countIn A + countIn c.pieces - 1) =
      c.read imports (Reading.extent A) := by
  have hfull : Source.cut source = A ++ (c.lead ++ ⟨.token .arrow, c.arrow⟩ :: (c.inner ++
      ⟨.token .name, c.name⟩ :: (c.outer ++ ⟨.token .openParen, c.opener⟩ :: (c.body ++
        ⟨.token .closeParen, c.closer⟩ :: Q)))) := by
    rw [hcut, ChainCall.pieces, ChainCall.head]
    simp
  obtain ⟨hstop, hzero⟩ := stopAt_of_closes hl hcut hA
  obtain ⟨arrow, harrow, -, -, harrowSpan⟩ := exists_token_of_cut hl (A := A ++ c.lead)
    (p := ⟨.token .arrow, c.arrow⟩) (by rw [hfull, List.append_assoc]) rfl
  obtain ⟨name, hname, -, hnameText, hnameSpan⟩ := exists_token_of_cut hl
    (A := A ++ (c.lead ++ ⟨.token .arrow, c.arrow⟩ :: c.inner)) (p := ⟨.token .name, c.name⟩)
    (Q := c.outer ++ ⟨.token .openParen, c.opener⟩ :: (c.body ++
      ⟨.token .closeParen, c.closer⟩ :: Q)) (by rw [hfull]; simp) rfl
  obtain ⟨closer, hcloser, -, -, hcloserSpan⟩ := exists_token_of_cut hl
    (A := A ++ (c.head ++ c.body)) (p := ⟨.token .closeParen, c.closer⟩) (Q := Q)
    (by rw [hfull, ChainCall.head]; simp) rfl
  have hargs := arguments_of_cut (A := A ++ (c.lead ++ ⟨.token .arrow, c.arrow⟩ :: (c.inner ++
    ⟨.token .name, c.name⟩ :: c.outer))) (q := ⟨.token .closeParen, c.closer⟩) (Q := Q) c.listed
    c.commas hl (p := ⟨.token .openParen, c.opener⟩)
    (by rw [hfull, ChainCall.body]; simp) c.bracketed
  have hheadExtent : Reading.extent (A ++ (c.lead ++ ⟨.token .arrow, c.arrow⟩ :: (c.inner ++
      ⟨.token .name, c.name⟩ :: c.outer)) ++ [⟨.token .openParen, c.opener⟩]) =
      Reading.extent A + Reading.extent c.head := by
    rw [← extent_append, ChainCall.head]
    simp
  have hcountLead : countIn (A ++ c.lead) = countIn A := by
    rw [countIn_append, countIn_of_kinds c.lead_gap, Nat.add_zero]
  have hcountName : countIn (A ++ (c.lead ++ ⟨.token .arrow, c.arrow⟩ :: c.inner)) = countIn A + 1 := by
    simp [countIn_append, ChainCall.countIn_token, countIn_of_kinds c.lead_gap,
      countIn_of_kinds c.inner_gap]
  have hcountOpener : countIn (A ++ (c.lead ++ ⟨.token .arrow, c.arrow⟩ :: (c.inner ++
      ⟨.token .name, c.name⟩ :: c.outer))) = countIn A + 2 := by
    simp [countIn_append, ChainCall.countIn_token, countIn_of_kinds c.lead_gap,
      countIn_of_kinds c.inner_gap, countIn_of_kinds c.outer_gap]
  have hcountCloser : countIn (A ++ (c.head ++ c.body)) = countIn A + countIn c.pieces - 1 := by
    rw [countIn_append, countIn_append, c.countIn_head, c.countIn_pieces]
    omega
  rw [hcountLead] at harrow
  rw [hcountName] at hname
  rw [hcountOpener, hheadExtent] at hargs
  rw [hcountCloser] at hcloser
  have hstop' : l.stopAt (countIn A + countIn c.pieces - 1) =
      Reading.extent A + Reading.extent c.pieces := by
    rw [stopAt, hcloser, Option.map_some, hcloserSpan, Option.getD_some, ChainCall.pieces]
    simp [Reading.extent, Nat.add_assoc]
  have hnameAt : Reading.extent (A ++ (c.lead ++ ⟨.token .arrow, c.arrow⟩ :: c.inner)) =
      Reading.extent A + c.nameAt := by
    simp [Reading.extent, ChainCall.nameAt, Nat.add_assoc]
  simp only [callOf, ChainCall.read, harrow, hname, hargs, hstop, if_neg hzero, hstop',
    Option.map_some, Option.getD_some, hnameText, hnameSpan, hnameAt, harrowSpan, extent_append,
    targets_of_entries, ChainCall.targets]

/-! ## 3. Every chain is a row of calls -/

/-- No call is chained where these pieces begin. -/
def Ends (Q : List Piece) : Prop := (kindsIn Q).take 3 ≠ [.arrow, .name, .openParen]

/-- The pieces of the first token, with those before and after it. -/
theorem exists_first {kind : TokenKind} {kinds : List TokenKind} (h : kindsIn R = kind :: kinds) :
    ∃ g text R', R = g ++ ⟨.token kind, text⟩ :: R' ∧ kindsIn g = [] ∧ kindsIn R' = kinds := by
  obtain ⟨g, R', rfl, hg, rfl | ⟨p, R₁, kind', rfl, hp⟩⟩ := exists_gap_of_pieces R
  · rw [List.append_nil, hg] at h
    cases h
  · rw [kindsIn_append, hg, kindsIn_of_token hp, List.nil_append] at h
    obtain ⟨rfl, hrest⟩ := List.cons.inj h
    refine ⟨g, p.text, R₁, ?_, hg, hrest⟩
    rw [← hp]

theorem eq_closeParen {d : TokenKind} {openers : List TokenKind} (h : d.closes = some openers)
    (hmem : openers.contains TokenKind.openParen = true) : d = .closeParen := by
  cases d <;> simp only [TokenKind.closes, Option.some.injEq, reduceCtorEq] at h <;> subst h
  · rfl
  all_goals exact absurd hmem (by decide)

/-- The call that is chained where a source goes on with an arrow, a name and a parenthesis. -/
theorem exists_call (hl : tokenize source = .ok l) (hcut : Source.cut source = A ++ R)
    (h : ¬ Ends R) : ∃ (c : ChainCall) (Q : List Piece), R = c.pieces ++ Q := by
  obtain ⟨kinds, hkinds⟩ : ∃ kinds, kindsIn R = .arrow :: .name :: .openParen :: kinds := by
    refine ⟨(kindsIn R).drop 3, ?_⟩
    conv => lhs; rw [← List.take_append_drop 3 (kindsIn R), not_not.mp h]
    rfl
  obtain ⟨lead, arrow, R₁, rfl, hlead, h₁⟩ := exists_first hkinds
  obtain ⟨inner, name, R₂, rfl, hinner, h₂⟩ := exists_first h₁
  obtain ⟨outer, opener, R₃, rfl, houter, -⟩ := exists_first h₂
  have hends : ∀ p ∈ Source.cut source, ∀ d, p.kind ≠ .broken d :=
    fun p hp d => ne_broken_of_tokenize hl hp d
  rw [hcut] at hends
  -- the parenthesis is closed, since the source can be read
  obtain ⟨r, hr, hopened, -⟩ := tokenize_eq_ok.mp hl
  have hsettle := settle_of_takeAll hr
  rw [hcut, kindsIn_append, settle_append, hopened] at hsettle
  obtain ⟨S, -, hS⟩ := Option.bind_eq_some_iff.mp hsettle
  rw [kindsIn_append, hlead, kindsIn_of_token rfl, kindsIn_append, hinner, kindsIn_of_token rfl,
    kindsIn_append, houter, kindsIn_of_token rfl] at hS
  obtain ⟨M, q, Q, d, openers, rfl, hq, hM, -, hcloses, hmem, -⟩ :=
    exists_closer (N := []) (o := .openParen) (S := S) (T := []) hS (Nat.zero_le _)
  obtain rfl := eq_closeParen hcloses hmem
  obtain ⟨es, t, rfl, hes, ht⟩ := Block.exists_entries _
    (⟨fun p hp => hends p (by simp [hp]), hM⟩ : Block M) (Nat.le_refl _) true (by simp)
  refine ⟨⟨lead, arrow, inner, name, outer, opener, es, t, q.text, hlead, hinner, houter, hes, ht,
    fun p hp => hends p ?_⟩, Q, ?_⟩
  · simp only [List.mem_append, List.mem_cons] at hp ⊢
    tauto
  · simp [ChainCall.pieces, ChainCall.head, ChainCall.body, ← hq]

/-- Every chain is a row of calls. -/
theorem exists_chain (n : Nat) (hl : tokenize source = .ok l) (hcut : Source.cut source = A ++ R)
    (hn : R.length ≤ n) :
    ∃ (cs : List ChainCall) (Q : List Piece), R = cs.flatMap ChainCall.pieces ++ Q ∧ Ends Q := by
  induction n generalizing A R with
  | zero =>
    obtain rfl := List.length_eq_zero_iff.mp (Nat.le_zero.mp hn)
    exact ⟨[], [], rfl, by simp [Ends, kindsIn]⟩
  | succ n ih =>
    by_cases hends : Ends R
    · exact ⟨[], R, rfl, hends⟩
    · obtain ⟨c, Q, rfl⟩ := exists_call hl hcut hends
      have hpos : 0 < c.pieces.length := by
        have : countIn c.pieces ≤ c.pieces.length := List.length_filterMap_le _ _
        have := c.countIn_pieces
        omega
      obtain ⟨cs, Q', rfl, hQ⟩ := ih (A := A ++ c.pieces) (R := Q) (by simpa using hcut)
        (by rw [List.length_append] at hn; omega)
      exact ⟨c :: cs, Q', by simp, hQ⟩

/-! ## 4. What is read of a row of calls -/

/-- What is read of calls the first of which begins at an offset. -/
def readChain (imports : Imports) (offset : Nat) : List ChainCall → List Call
  | [] => []
  | c :: cs => c.read imports offset :: readChain imports (offset + Reading.extent c.pieces) cs

theorem not_isCall_of_ends (hl : tokenize source = .ok l) (hcut : Source.cut source = A ++ Q)
    (h : Ends Q) (close : Nat) : ¬ IsCall l (countIn A) close := by
  intro hcall
  obtain ⟨harrow, hname, hopener⟩ := hcall.kinds
  have hkinds : ∀ j, l.kindAt (countIn A + j) = (kindsIn Q)[j]? := by
    intro j
    rw [kindAt_eq, countIn, wordAt_after hl hcut, kindsIn, List.getElem?_map]
  rw [hkinds 1] at hname
  rw [hkinds 2] at hopener
  rw [← Nat.add_zero (countIn A), hkinds 0] at harrow
  refine h ?_
  generalize kindsIn Q = kinds at harrow hname hopener
  obtain _ | ⟨a, _ | ⟨b, _ | ⟨c, rest⟩⟩⟩ := kinds
  · cases harrow
  · cases hname
  · cases hopener
  · simp_all

/-- The chain of a source is the row of calls among its pieces. -/
theorem chained_of_cut (hl : tokenize source = .ok l) {cs : List ChainCall}
    (hcut : Source.cut source = A ++ (cs.flatMap ChainCall.pieces ++ Q)) (hA : Closes A)
    (hQ : Ends Q) (imports : Imports) :
    ∃ ds, Chained l (countIn A) ds ∧ ds.map (fun d => callOf l source imports d.1 d.2) =
      readChain imports (Reading.extent A) cs := by
  induction cs generalizing A with
  | nil => exact ⟨[], .stop fun close => not_isCall_of_ends hl hcut hQ close, rfl⟩
  | cons c cs ih =>
    have hcut' : Source.cut source = A ++ (c.pieces ++ (cs.flatMap ChainCall.pieces ++ Q)) := by
      simpa using hcut
    obtain ⟨ds, hds, hread⟩ := ih (A := A ++ c.pieces) (by simpa using hcut')
      ⟨_, _, by rw [ChainCall.pieces, ← List.append_assoc, ← List.append_assoc], rfl⟩
    have hpos := c.countIn_pieces
    rw [countIn_append, show countIn A + countIn c.pieces =
      countIn A + countIn c.pieces - 1 + 1 by omega] at hds
    refine ⟨_, .call (isCall_of_cut hl hcut') hds, ?_⟩
    rw [List.map_cons, hread, readChain, callOf_of_cut hl hcut' hA, extent_append]

/-- What is read of the chain of a source. -/
theorem chainFrom_of_cut (hl : tokenize source = .ok l) {cs : List ChainCall}
    (hcut : Source.cut source = A ++ (cs.flatMap ChainCall.pieces ++ Q)) (hA : Closes A)
    (hQ : Ends Q) (imports : Imports) :
    chainFrom l source imports l.tokens.size (countIn A) =
      readChain imports (Reading.extent A) cs := by
  obtain ⟨ds, hds, hread⟩ := chained_of_cut hl hcut hA hQ imports
  obtain ⟨ds', hds', hchain⟩ := exists_chained (nested_of_tokenize hl) (countIn A)
  obtain rfl := hds.unique hds'
  rw [hchain _ _ _ (by omega), hread]

theorem reaches_of_cut (hl : tokenize source = .ok l) {cs : List ChainCall}
    (hcut : Source.cut source = A ++ (cs.flatMap ChainCall.pieces ++ Q)) :
    Reaches l (countIn A) (countIn (A ++ cs.flatMap ChainCall.pieces)) := by
  induction cs generalizing A with
  | nil => simpa using Reaches.refl (l := l) (countIn A)
  | cons c cs ih =>
    have hcut' : Source.cut source = A ++ (c.pieces ++ (cs.flatMap ChainCall.pieces ++ Q)) := by
      simpa using hcut
    have hrest := ih (A := A ++ c.pieces) (by simpa using hcut')
    have hpos := c.countIn_pieces
    rw [countIn_append, show countIn A + countIn c.pieces =
      countIn A + countIn c.pieces - 1 + 1 by omega] at hrest
    have := Reaches.step (isCall_of_cut hl hcut') hrest
    simpa using this

end Crosslink.FluentChain
