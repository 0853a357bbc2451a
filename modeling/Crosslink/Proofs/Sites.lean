import Mathlib.Data.List.Basic
import Crosslink.FluentChain.Reader
import Crosslink.Proofs.Slots

/-!
# Where tests are called

The tests of a file stand at its sites, the tokens that call `test` or `it`, and the groups around a
test are the calls of `describe` before it that end after it. Both can be told at each token by
itself, without the walk that collects them.

* §1 `siteAt`, `groupsAt` and `testsFrom_eq`, the tests of a file site by site.
* §2 `Chained`, the calls chained to what ends before a token.
* §3 `site_unique`, the one test that a chained call belongs to.
-/

namespace Crosslink.FluentChain

open Source Source.TokenSequence

/-! ## 1. Sites -/

/-- The keyword that the token at an index calls, with the index of the closing parenthesis. -/
def siteAt (l : TokenSequence) (i : Nat) : Option (Keyword × Nat) :=
  l.tokens[i]?.bind (keywordCall l i)

/-- The group that the token at an index opens: its title, and the index of the closing
parenthesis. -/
def groupAt (l : TokenSequence) (source : Text) (i : Nat) : Option (Text × Nat) :=
  match siteAt l i with
  | some (.describe, close) => some (titleOf (l.arguments source (i + 1)), close)
  | _ => none

/-- The groups opened between two tokens. -/
def groupsIn (l : TokenSequence) (source : Text) (i j : Nat) : List (Text × Nat) :=
  (List.range' i (j - i)).filterMap (groupAt l source)

/-- The test that the token at an index calls, inside those of the groups that end after it. -/
def testIn (l : TokenSequence) (source : Text) (imports : Imports) (groups : List (Text × Nat))
    (i : Nat) : Option Test :=
  l.tokens[i]?.bind fun t =>
    match keywordCall l i t with
    | some (.describe, _) | none => none
    | some (keyword, close) =>
      some (testAt l source imports ((groups.filter (i ≤ ·.2)).map Prod.fst) keyword i close t)

variable {l : TokenSequence} {source : Text} {imports : Imports} {i j : Nat}
  {groups : List (Text × Nat)}

/-- True for the tokens after which a keyword calls nothing. -/
def bars (t : Token) : Bool :=
  t.kind = .arrow || t.kind = .doubleColon || t.isOneOf ["function", "new"]

/-- True when the token before an index bars a call there. -/
def barred (l : TokenSequence) (i : Nat) : Bool := (if i = 0 then none else l.tokens[i - 1]?).any bars

theorem keywordCall_eq (l : TokenSequence) (i : Nat) (t : Token) :
    keywordCall l i t = (Keyword.ofToken t).bind fun keyword =>
      if barred l i then none
      else if l.isKind (i + 1) .openParen then (l.partnerAt (i + 1)).map (keyword, ·)
      else none := by
  unfold keywordCall isKind kindAt partnerAt
  cases Keyword.ofToken t with
  | none => rfl
  | some keyword =>
    simp only [Option.bind_eq_bind, Option.bind_some]
    refine ite_congr rfl (fun _ => rfl) fun _ => ?_
    cases l.tokens[i + 1]? with
    | none => rfl
    | some o =>
      by_cases ho : o.kind = .openParen
      · simp [ho, Option.map_eq_bind, Function.comp_def, Option.filter]
      · simp [ho]

theorem keywordCall_eq_some {t : Token} {keyword : Keyword} {close : Nat} :
    keywordCall l i t = some (keyword, close) ↔
      Keyword.ofToken t = some keyword ∧ barred l i = false ∧
        l.isKind (i + 1) .openParen = true ∧ l.partnerAt (i + 1) = some close := by
  rw [keywordCall_eq]
  cases Keyword.ofToken t with
  | none => simp
  | some kw =>
    simp only [Option.bind_some]
    cases barred l i with
    | true => simp
    | false =>
      cases l.isKind (i + 1) .openParen with
      | false => simp
      | true =>
        simp only [Bool.false_eq_true, if_false, if_true, Option.map_eq_some_iff, Prod.mk.injEq,
          Option.some.injEq, true_and]
        exact ⟨fun ⟨c, hc, hk, he⟩ => ⟨hk, he ▸ hc⟩, fun ⟨hk, hc⟩ => ⟨close, hc, hk, rfl⟩⟩

theorem kind_of_keyword {t : Token} {keyword : Keyword} (h : Keyword.ofToken t = some keyword) :
    t.kind = .name := by
  unfold Keyword.ofToken at h
  simp only [Token.isWord, Bool.and_eq_true, decide_eq_true_eq] at h
  split at h
  · rename_i hw; exact hw.1
  · split at h
    · rename_i hw; exact hw.1
    · split at h
      · rename_i hw; exact hw.1
      · cases h

theorem lt_size_of_isKind {kind : TokenKind} (h : l.isKind i kind = true) : i < l.tokens.size := by
  by_cases hi : i < l.tokens.size
  · exact hi
  · simp [isKind, kindAt, Array.getElem?_eq_none (Nat.le_of_not_lt hi)] at h

/-- The parenthesis after a keyword is no keyword. -/
theorem siteAt_succ {keyword : Keyword} {close : Nat} (h : siteAt l i = some (keyword, close)) :
    siteAt l (i + 1) = none := by
  obtain ⟨t, -, ht⟩ := Option.bind_eq_some_iff.mp h
  obtain ⟨-, -, hopen, -⟩ := keywordCall_eq_some.mp ht
  unfold siteAt
  refine Option.bind_eq_none_iff.mpr fun u hu => ?_
  cases hk : keywordCall l (i + 1) u with
  | none => rfl
  | some r =>
    have hname := kind_of_keyword
      (keywordCall_eq_some.mp (show keywordCall l (i + 1) u = some (r.1, r.2) from hk)).1
    rw [isKind, kindAt, hu] at hopen
    simp [hname] at hopen

theorem siteAt_of_token {t : Token} (ht : l.tokens[i]? = some t) :
    siteAt l i = keywordCall l i t := by
  rw [siteAt, ht]
  rfl

theorem testIn_eq_none (h : siteAt l i = none) : testIn l source imports groups i = none := by
  unfold testIn
  refine Option.bind_eq_none_iff.mpr fun t ht => ?_
  rw [siteAt_of_token ht] at h
  rw [h]

theorem groupAt_eq_none (h : siteAt l i = none) : groupAt l source i = none := by
  rw [groupAt, h]

theorem testIn_filter (groups : List (Text × Nat)) (hij : i ≤ j) :
    testIn l source imports (groups.filter (i ≤ ·.2)) j = testIn l source imports groups j := by
  have hfilter : (groups.filter (i ≤ ·.2)).filter (j ≤ ·.2) = groups.filter (j ≤ ·.2) := by
    rw [List.filter_filter]
    refine List.filter_congr fun g _ => ?_
    simp only [Bool.and_eq_left_iff_imp, decide_eq_true_eq]
    omega
  unfold testIn
  rw [hfilter]

theorem testIn_congr {kept : List (Text × Nat)} (hij : i ≤ j)
    (h : groups.filter (i ≤ ·.2) = kept.filter (i ≤ ·.2)) :
    testIn l source imports groups j = testIn l source imports kept j := by
  rw [← testIn_filter groups hij, h, testIn_filter kept hij]

theorem groupsIn_succ (hij : i < j) :
    groupsIn l source i j = (groupAt l source i).toList ++ groupsIn l source (i + 1) j := by
  obtain ⟨d, rfl⟩ := Nat.exists_eq_add_of_lt hij
  unfold groupsIn
  rw [show i + d + 1 - i = d + 1 by omega, show i + d + 1 - (i + 1) = d by omega, List.range'_succ,
    List.filterMap_cons]
  cases groupAt l source i <;> rfl

/-- The tests from a token on, site by site. -/
def testsBy (l : TokenSequence) (source : Text) (imports : Imports) (groups : List (Text × Nat))
    (i : Nat) : List Test :=
  (List.range' i (l.tokens.size - i)).filterMap fun j =>
    testIn l source imports (groups ++ groupsIn l source i j) j

theorem testsBy_of_le (h : l.tokens.size ≤ i) : testsBy l source imports groups i = [] := by
  rw [testsBy, Nat.sub_eq_zero_of_le h]
  rfl

theorem testsBy_succ (h : i < l.tokens.size) :
    testsBy l source imports groups i =
      (testIn l source imports groups i).toList ++
        testsBy l source imports (groups.filter (i ≤ ·.2) ++ (groupAt l source i).toList) (i + 1) := by
  obtain ⟨d, hd⟩ := Nat.exists_eq_add_of_lt h
  unfold testsBy
  rw [show l.tokens.size - i = d + 1 by omega, show l.tokens.size - (i + 1) = d by omega,
    List.range'_succ, List.filterMap_cons]
  have hself : testIn l source imports (groups ++ groupsIn l source i i) i =
      testIn l source imports groups i := by simp [groupsIn]
  have hrest : (List.range' (i + 1) d).filterMap (fun j =>
        testIn l source imports (groups ++ groupsIn l source i j) j) =
      (List.range' (i + 1) d).filterMap fun j => testIn l source imports
        (groups.filter (i ≤ ·.2) ++ (groupAt l source i).toList ++ groupsIn l source (i + 1) j) j := by
    refine List.filterMap_congr fun j hj => ?_
    have hij : i < j := (List.mem_range'_1.mp hj).1
    refine testIn_congr (Nat.le_of_lt hij) ?_
    simp [groupsIn_succ hij, List.filter_append, List.filter_filter]
  rw [hself, hrest]
  cases testIn l source imports groups i <;> rfl

/-- Groups that end before are of no account. -/
theorem testsBy_filter (groups : List (Text × Nat)) (hij : i ≤ j) :
    testsBy l source imports (groups.filter (i ≤ ·.2)) j = testsBy l source imports groups j := by
  refine List.filterMap_congr fun m hm => testIn_congr (i := i) ?_ ?_
  · have := (List.mem_range'_1.mp hm).1
    omega
  · simp [List.filter_append, List.filter_filter]

/-- The tests found on the walk through the tokens are those at the sites. -/
theorem testsFrom_eq (l : TokenSequence) (source : Text) (imports : Imports)
    (groups : List (Text × Nat)) (i : Nat) :
    testsFrom l source imports groups i = testsBy l source imports groups i := by
  induction hm : l.tokens.size - i using Nat.strongRecOn generalizing groups i with
  | ind m ih =>
    subst hm
    rw [testsFrom]
    dsimp only
    split
    · rename_i hnone
      exact (testsBy_of_le (Array.getElem?_eq_none_iff.mp hnone)).symm
    · rename_i t ht
      have hi := (Array.getElem?_eq_some_iff.mp ht).1
      have hsite := siteAt_of_token ht
      rw [testsBy_succ hi]
      split
      · rename_i hcall
        rw [hcall] at hsite
        rw [ih _ (by omega) _ (i + 1) rfl, testIn_eq_none hsite, groupAt_eq_none hsite]
        simp
      · rename_i close hcall
        rw [hcall] at hsite
        have hnext := siteAt_succ hsite
        have hi' := lt_size_of_isKind (keywordCall_eq_some.mp hcall).2.2.1
        rw [ih _ (by omega) _ (i + 2) rfl, testsBy_succ hi', testIn_eq_none hnext,
          groupAt_eq_none hnext]
        have hgroup : groupAt l source i =
            some (titleOf (l.arguments source (i + 1)), close) := by rw [groupAt, hsite]
        have htest : testIn l source imports groups i = none := by
          rw [testIn, ht, Option.bind_some, hcall]
        rw [hgroup, htest, Option.toList_none, Option.toList_none, List.append_nil,
          testsBy_filter _ (Nat.le_succ _)]
        rfl
      · rename_i keyword close hne hcall
        rw [hcall] at hsite
        have hnext := siteAt_succ hsite
        have hi' := lt_size_of_isKind (keywordCall_eq_some.mp hcall).2.2.1
        rw [ih _ (by omega) _ (i + 2) rfl, testsBy_succ hi', testIn_eq_none hnext,
          groupAt_eq_none hnext]
        have hgroup : groupAt l source i = none := by
          rw [groupAt, hsite]
          cases keyword <;> first | rfl | exact (hne rfl).elim
        have htest : testIn l source imports groups i =
            some (testAt l source imports ((groups.filter (i ≤ ·.2)).map Prod.fst) keyword i close t) := by
          rw [testIn, ht, Option.bind_some, hcall]
          cases keyword <;> first | rfl | exact (hne rfl).elim
        rw [hgroup, htest, Option.toList_none, Option.toList_none, List.append_nil, List.append_nil,
          testsBy_filter _ (Nat.le_succ _)]
        rfl

/-- The tests of a file with their sites. -/
def located (l : TokenSequence) (source : Text) (imports : Imports) : List (Nat × Test) :=
  (List.range l.tokens.size).filterMap fun i =>
    (testIn l source imports (groupsIn l source 0 i) i).map (i, ·)

theorem tests_eq_located (l : TokenSequence) (source : Text) (imports : Imports) :
    testsFrom l source imports [] 0 = (located l source imports).map Prod.snd := by
  rw [testsFrom_eq, testsBy, located, Nat.sub_zero, ← List.range_eq_range', List.map_filterMap]
  refine List.filterMap_congr fun i _ => ?_
  rw [List.nil_append]
  cases testIn l source imports (groupsIn l source 0 i) i <;> rfl

/-- Where tests are called does not depend on what is imported. -/
theorem located_sites (imports imports' : Imports) :
    (located l source imports).map Prod.fst = (located l source imports').map Prod.fst := by
  unfold located
  rw [List.map_filterMap, List.map_filterMap]
  refine List.filterMap_congr fun i _ => ?_
  rw [Option.map_map, Option.map_map]
  unfold testIn
  cases l.tokens[i]? with
  | none => rw [Option.bind_none, Option.bind_none]
  | some t =>
    rw [Option.bind_some, Option.bind_some]
    split <;> simp

theorem located_sorted (l : TokenSequence) (source : Text) (imports : Imports) :
    (located l source imports).Pairwise fun p q => p.1 < q.1 := by
  refine List.Pairwise.filterMap _ ?_ (List.pairwise_lt_range)
  intro i j hij p hp q hq
  obtain ⟨t, -, rfl⟩ := Option.map_eq_some_iff.mp hp
  obtain ⟨u, -, rfl⟩ := Option.map_eq_some_iff.mp hq
  exact hij

theorem mem_located {p : Nat × Test} :
    p ∈ located l source imports ↔
      testIn l source imports (groupsIn l source 0 p.1) p.1 = some p.2 := by
  constructor
  · intro h
    obtain ⟨i, -, hi⟩ := List.mem_filterMap.mp h
    obtain ⟨t, ht, rfl⟩ := Option.map_eq_some_iff.mp hi
    exact ht
  · intro h
    have hsize : p.1 < l.tokens.size := by
      obtain ⟨t, ht, -⟩ := Option.bind_eq_some_iff.mp h
      exact (Array.getElem?_eq_some_iff.mp ht).1
    exact List.mem_filterMap.mpr ⟨p.1, List.mem_range.mpr hsize, by rw [h]; rfl⟩

/-- A test with its site is called there. -/
theorem siteAt_of_mem_located {p : Nat × Test} (h : p ∈ located l source imports) :
    ∃ keyword close t, siteAt l p.1 = some (keyword, close) ∧ l.tokens[p.1]? = some t ∧
      p.2 = testAt l source imports
        (((groupsIn l source 0 p.1).filter (p.1 ≤ ·.2)).map Prod.fst) keyword p.1 close t := by
  obtain ⟨t, ht, h⟩ := Option.bind_eq_some_iff.mp (mem_located.mp h)
  split at h
  · cases h
  · cases h
  · rename_i keyword close hne hcall
    exact ⟨keyword, close, t, by rw [siteAt_of_token ht, hcall], ht, (Option.some.inj h).symm⟩

/-! ## 2. Chains -/

/-- The token at `i` is the arrow of a chained call whose closing parenthesis is the token
`close`. -/
structure IsCall (l : TokenSequence) (i close : Nat) : Prop where
  arrow : l.isKind i .arrow = true
  name : l.isKind (i + 1) .name = true
  opener : l.isKind (i + 2) .openParen = true
  partner : l.partnerAt (i + 2) = some close

/-- The chained call between the tokens `i` and `close`. -/
def callOf (l : TokenSequence) (source : Text) (imports : Imports) (i close : Nat) : Call :=
  { name := (l.tokens[i + 1]?.map Token.text).getD []
    nameSpan := (l.tokens[i + 1]?.map Token.span).getD (Span.point 0)
    gap :=
      let start := (l.tokens[i]?.map (·.span.start)).getD 0
      ⟨if i = 0 then start else l.stopAt (i - 1), start⟩
    stop := l.stopAt close
    arguments := l.arguments source (i + 2)
    targets := (l.arguments source (i + 2)).map (argumentTarget imports) }

theorem callAt_eq_some {c : Call} {close : Nat} :
    callAt l source imports i = some (c, close) ↔
      IsCall l i close ∧ c = callOf l source imports i close := by
  constructor
  · intro h
    unfold callAt at h
    obtain ⟨arrow, harrow, h⟩ := Option.bind_eq_some_iff.mp h
    obtain ⟨name, hname, h⟩ := Option.bind_eq_some_iff.mp h
    obtain ⟨opener, hopener, h⟩ := Option.bind_eq_some_iff.mp h
    obtain ⟨close', hclose, h⟩ := Option.bind_eq_some_iff.mp h
    obtain ⟨rfl, rfl⟩ := Prod.mk.inj (Option.some.inj h)
    obtain ⟨harrow, hk⟩ := Option.filter_eq_some_iff.mp harrow
    obtain ⟨hname, hk'⟩ := Option.filter_eq_some_iff.mp hname
    obtain ⟨hopener, hk''⟩ := Option.filter_eq_some_iff.mp hopener
    refine ⟨⟨?_, ?_, ?_, ?_⟩, ?_⟩
    · simpa [isKind, kindAt, harrow] using hk
    · simpa [isKind, kindAt, hname] using hk'
    · simpa [isKind, kindAt, hopener] using hk''
    · simpa [partnerAt, hopener] using hclose
    · simp [callOf, harrow, hname]
  · rintro ⟨⟨harrow, hname, hopener, hpartner⟩, rfl⟩
    simp only [isKind, kindAt, decide_eq_true_eq, Option.map_eq_some_iff] at harrow hname hopener
    obtain ⟨arrow, harrow, hk⟩ := harrow
    obtain ⟨name, hname, hk'⟩ := hname
    obtain ⟨opener, hopener, hk''⟩ := hopener
    simp only [partnerAt, hopener, Option.bind_some] at hpartner
    simp [callAt, callOf, harrow, hname, hopener, hk, hk', hk'', hpartner, Option.filter]

/-- The calls chained to what ends before a token, each with its first and its last token. -/
inductive Chained (l : TokenSequence) : Nat → List (Nat × Nat) → Prop
  | stop {i : Nat} (h : ∀ close, ¬ IsCall l i close) : Chained l i []
  | call {i close : Nat} {cs : List (Nat × Nat)} (h : IsCall l i close)
      (rest : Chained l (close + 1) cs) : Chained l i ((i, close) :: cs)

theorem lt_of_openParen (hl : l.Nested) {close : Nat} (hopener : l.isKind i .openParen = true)
    (hpartner : l.partnerAt i = some close) : i < close := by
  obtain ⟨t, ht, htc⟩ := partnerAt_eq_some.mp hpartner
  have hkind : t.kind = .openParen := by simpa [isKind, kindAt, ht] using hopener
  exact hl.lt_partner ht (by rw [hkind]; rfl) htc

theorem IsCall.lt (hl : l.Nested) {close : Nat} (h : IsCall l i close) : i + 2 < close :=
  lt_of_openParen hl h.opener h.partner

theorem isKind_close (hl : l.Nested) {close : Nat} (hopener : l.isKind i .openParen = true)
    (hpartner : l.partnerAt i = some close) : l.isKind close .closeParen = true := by
  obtain ⟨o, d, ho, hd, -, -, openers, hcloses, hmem⟩ :=
    hl.kinds_of_partner hpartner (lt_of_openParen hl hopener hpartner)
  rw [isKind, ho] at hopener
  obtain rfl : o = .openParen := by simpa using hopener
  rw [isKind, hd]
  cases d <;> simp_all [TokenKind.closes] <;> subst hcloses <;> simp at hmem

/-- The chain that is read, given enough fuel. -/
theorem exists_chained (hl : l.Nested) (i : Nat) :
    ∃ cs, Chained l i cs ∧ ∀ source imports fuel, l.tokens.size ≤ fuel + i →
      chainFrom l source imports fuel i = cs.map fun c => callOf l source imports c.1 c.2 := by
  induction hm : l.tokens.size - i using Nat.strongRecOn generalizing i with
  | ind m ih =>
    subst hm
    by_cases h : ∃ close, IsCall l i close
    · obtain ⟨close, h⟩ := h
      have hlt := h.lt hl
      have hsize := hl.lt_size h.partner
      obtain ⟨cs, hcs, hchain⟩ := ih _ (by omega) (close + 1) rfl
      refine ⟨(i, close) :: cs, .call h hcs, fun source imports fuel hfuel => ?_⟩
      cases fuel with
      | zero => omega
      | succ fuel =>
        rw [chainFrom, callAt_eq_some.mpr ⟨h, rfl⟩]
        simp only
        rw [hchain source imports fuel (by omega)]
        rfl
    · refine ⟨[], .stop fun close hc => h ⟨close, hc⟩, fun source imports fuel _ => ?_⟩
      cases fuel with
      | zero => rfl
      | succ fuel =>
        rw [chainFrom]
        cases hcall : callAt l source imports i with
        | none => rfl
        | some r =>
          have hcall : callAt l source imports i = some (r.1, r.2) := hcall
          exact absurd ⟨r.2, (callAt_eq_some.mp hcall).1⟩ h

theorem IsCall.unique {close close' : Nat} (h : IsCall l i close) (h' : IsCall l i close') :
    close = close' := Option.some.inj (h.partner.symm.trans h'.partner)

theorem Chained.unique {cs ds : List (Nat × Nat)} (h : Chained l i cs) (h' : Chained l i ds) :
    cs = ds := by
  induction h generalizing ds with
  | stop h =>
    cases h' with
    | stop => rfl
    | call h'' => exact absurd h'' (h _)
  | @call i close cs h rest ih =>
    cases h' with
    | stop h'' => exact absurd h (h'' _)
    | @call _ close' ds h'' rest' =>
      obtain rfl := h.unique h''
      rw [ih rest']

/-! ## 3. Which test a call belongs to -/

/-- The chain that goes on at `i` goes on at `j` too. -/
inductive Reaches (l : TokenSequence) : Nat → Nat → Prop
  | refl (i : Nat) : Reaches l i i
  | step {i close j : Nat} (h : IsCall l i close) (rest : Reaches l (close + 1) j) : Reaches l i j

theorem Reaches.trans {m : Nat} (h : Reaches l i j) (h' : Reaches l j m) : Reaches l i m := by
  induction h with
  | refl => exact h'
  | step hc rest ih => exact .step hc (ih h')

/-- The last call before a place that a chain reaches. -/
theorem Reaches.last (h : Reaches l i j) :
    i = j ∨ ∃ p close, j = close + 1 ∧ Reaches l i p ∧ IsCall l p close := by
  induction h with
  | refl => exact .inl rfl
  | @step i close j hc rest ih =>
    obtain rfl | ⟨p, close', hj, hp, hc'⟩ := ih
    · exact .inr ⟨i, close, rfl, .refl i, hc⟩
    · exact .inr ⟨p, close', hj, .step hc hp, hc'⟩

theorem siteAt_eq_some {keyword : Keyword} {close : Nat}
    (h : siteAt l i = some (keyword, close)) :
    barred l i = false ∧ l.isKind (i + 1) .openParen = true ∧ l.partnerAt (i + 1) = some close := by
  obtain ⟨t, -, ht⟩ := Option.bind_eq_some_iff.mp h
  exact (keywordCall_eq_some.mp ht).2

/-- A place in a chain is reached from one site only, since the bracket that closes there tells
where its call begins, and a keyword after an arrow calls nothing. -/
theorem site_unique (hl : l.Nested) {s s' c c' : Nat} {keyword keyword' : Keyword}
    (hs : siteAt l s = some (keyword, c)) (hs' : siteAt l s' = some (keyword', c'))
    (h : Reaches l (c + 1) j) (h' : Reaches l (c' + 1) j) : s = s' := by
  induction hj : j using Nat.strongRecOn generalizing j with
  | ind m ih =>
    subst hj
    obtain ⟨hb, -, hp⟩ := siteAt_eq_some hs
    obtain ⟨hb', -, hp'⟩ := siteAt_eq_some hs'
    have hcall : ∀ {s c p e : Nat}, barred l s = false → l.partnerAt (s + 1) = some c →
        IsCall l p e → c = e → False := by
      rintro s c p e hb hp hcall rfl
      have := (hl.partnerAt_comm hp).symm.trans (hl.partnerAt_comm hcall.partner)
      obtain rfl : s = p + 1 := by have := Option.some.inj this; omega
      have harrow := hcall.arrow
      simp only [isKind, kindAt, decide_eq_true_eq, Option.map_eq_some_iff] at harrow
      obtain ⟨t, ht, hk⟩ := harrow
      simp [barred, bars, ht, hk] at hb
    obtain he | ⟨p, e, he, hr, hc⟩ := h.last
    · obtain he' | ⟨p', e', he', hr', hc'⟩ := h'.last
      · obtain rfl : c = c' := by omega
        have := (hl.partnerAt_comm hp).symm.trans (hl.partnerAt_comm hp')
        have := Option.some.inj this
        omega
      · exact (hcall hb hp hc' (by omega)).elim
    · obtain he' | ⟨p', e', he', hr', hc'⟩ := h'.last
      · exact (hcall hb' hp' hc (by omega)).elim
      · obtain rfl : e = e' := by omega
        have := (hl.partnerAt_comm hc.partner).symm.trans (hl.partnerAt_comm hc'.partner)
        obtain rfl : p = p' := by have := Option.some.inj this; omega
        have := hc.lt hl
        exact ih p (by omega) hr hr' rfl

end Crosslink.FluentChain
