import Crosslink.Proofs.Amending
import Crosslink.Proofs.Places

/-!
# Tests found again

A recorded test is found again by its name, its identifier and where it starts, and no two tests of a
source start at the same place. After an edit of its chain a test stands where it stood, so it is
found again too.

* §1 Where tokens start.
* §2 `locate_eq`, a recorded test found.
* §3 `exists_standing`, the pieces of a test's chain.
* §4 `exists_edited`, a source whose chain is edited.
-/

namespace Crosslink.FluentChain

open Source Source.TokenSequence

variable {source : Text} {l l' : TokenSequence} {i j : Nat} {t u : Token}

/-! ## 1. Where tokens start -/

/-- A token among the pieces that two sources begin with starts at one place in both. -/
theorem start_of_begins {source' : Text} {P Q Q' : List Piece} (hl : tokenize source = .ok l)
    (hl' : tokenize source' = .ok l') (hcut : cut source = P ++ Q) (hcut' : cut source' = P ++ Q')
    (hi : i < countIn P) (ht : l.tokens[i]? = some t) (hu : l'.tokens[i]? = some u) :
    u.span.start = t.span.start := by
  obtain ⟨A, p, R, hA, hp, -, rfl, hstart, -⟩ := exists_piece hl ht
  have hbegins : A ++ [p] <+: P :=
    prefix_of_count (C := cut source) ⟨R, by rw [hA]; simp⟩ ⟨Q, hcut.symm⟩ hi
  obtain ⟨S, rfl⟩ := hbegins
  obtain ⟨v, hv, -, -, hspan⟩ := exists_token_of_cut hl' (A := A) (p := p) (Q := S ++ Q')
    (by rw [hcut']; simp) hp
  obtain rfl := Option.some.inj (hv.symm.trans hu)
  rw [hspan, hstart]

/-! ## 2. Finding a recorded test -/

/-- A test was recorded as this one: it has its name, its start, and its identifier, perhaps with the
container or the namespace of its file before it. -/
structure Recorded (c r : TestCase) : Prop where
  name : r.name = c.name
  identifier : TestCase.isEndOf c.identifier r.identifier = true
  start : r.span.start = c.span.start

theorem Recorded.refl (c : TestCase) : Recorded c c :=
  ⟨rfl, by simp [TestCase.isEndOf], rfl⟩

theorem findAgain_eq {cases : List TestCase} {c r : TestCase} (hi : cases[i]? = some c)
    (hr : Recorded c r)
    (hdistinct : ∀ j d, j < i → cases[j]? = some d → d.span.start ≠ c.span.start) :
    TestCase.findAgain? cases r = some i := by
  have hfind : cases.findIdx? (fun d => (d.name == r.name && TestCase.isEndOf d.identifier r.identifier)
      && d.span.start == r.span.start) = some i := by
    obtain ⟨hlt, hget⟩ := List.getElem?_eq_some_iff.mp hi
    refine List.findIdx?_eq_some_iff_getElem.mpr ⟨hlt, ?_, fun j hj => ?_⟩
    · simp [hget, hr.name, hr.identifier, hr.start]
    · have := hdistinct j _ hj (List.getElem?_eq_getElem (by omega))
      simp [hr.start, this]
  rw [TestCase.findAgain?, hfind]
  rfl

/-- A test of a file with the tokens and the site where it stands. -/
structure Sited (source : Text) (l : TokenSequence) (file : File) (i o c : Nat) (keyword : Keyword)
    (t : Test) : Prop where
  read : tokenize source = .ok l
  imports : file.imports = Imports.ofTokens l
  tests : file.tests = (located l source file.imports).map Prod.snd
  at_site : (located l source file.imports)[i]? = some (o, t)
  site : siteAt l o = some (keyword, c)
  test : ∃ groups tok, l.tokens[o]? = some tok ∧
    t = testAt l source file.imports groups keyword o c tok

theorem exists_sited {file : File} {t : Test} (h : File.read source = .ok file)
    (ht : file.tests[i]? = some t) : ∃ l o c keyword, Sited source l file i o c keyword t := by
  unfold File.read at h
  cases hl : tokenize source with
  | error e =>
    rw [hl] at h
    cases h
  | ok l =>
    rw [hl] at h
    obtain rfl := Except.ok.inj h
    rw [tests_eq_located, List.getElem?_map] at ht
    obtain ⟨p, hp, rfl⟩ := Option.map_eq_some_iff.mp ht
    obtain ⟨keyword, c, tok, hsite, htok, htest⟩ := siteAt_of_mem_located (List.mem_of_getElem? hp)
    exact ⟨l, p.1, c, keyword, hl, rfl, tests_eq_located _ _ _, hp, hsite, _, tok, htok, htest⟩

/-- Earlier tests stand at earlier sites. -/
theorem located_lt {imports : Imports} {p q : Nat × Test} (hp : (located l source imports)[i]? = some p)
    (hq : (located l source imports)[j]? = some q) (hij : i < j) : p.1 < q.1 := by
  obtain ⟨hi, hgeti⟩ := List.getElem?_eq_some_iff.mp hp
  obtain ⟨hj, hgetj⟩ := List.getElem?_eq_some_iff.mp hq
  have := List.pairwise_iff_getElem.mp (located_sorted l source imports) i j hi hj hij
  rwa [hgeti, hgetj] at this

/-- A file with a test that stands in it is what is read of its source. -/
theorem Sited.file_read {file : File} {t : Test} {o c : Nat} {keyword : Keyword}
    (h : Sited source l file i o c keyword t) :
    File.read source = .ok file ∧ file.tests[i]? = some t := by
  refine ⟨?_, by rw [h.tests, List.getElem?_map, h.at_site]; rfl⟩
  obtain ⟨imports, tests⟩ := file
  obtain rfl : imports = Imports.ofTokens l := h.imports
  obtain rfl : tests = (located l source (Imports.ofTokens l)).map Prod.snd := h.tests
  rw [File.read, h.read, ← tests_eq_located]
  rfl

theorem Sited.start {file : File} {t : Test} {o c : Nat} {keyword : Keyword}
    (h : Sited source l file i o c keyword t) :
    ∃ tok, l.tokens[o]? = some tok ∧ t.case.span.start = tok.span.start := by
  obtain ⟨groups, tok, htok, rfl⟩ := h.test
  exact ⟨tok, htok, rfl⟩

/-- A recorded test is found in the source it was recorded from. -/
theorem locate_eq {file : File} {t : Test} {r : TestCase} (h : File.read source = .ok file)
    (ht : file.tests[i]? = some t) (hr : Recorded t.case r) : locate source r = .ok (file, t) := by
  obtain ⟨l, o, c, keyword, hs⟩ := exists_sited h ht
  have hfind : TestCase.findAgain? (file.tests.map Test.case) r = some i := by
    refine findAgain_eq (c := t.case) (by rw [List.getElem?_map, ht]; rfl) hr fun j d hj hd he => ?_
    rw [List.getElem?_map] at hd
    obtain ⟨u, hu, rfl⟩ := Option.map_eq_some_iff.mp hd
    obtain ⟨l', o', c', keyword', hs'⟩ := exists_sited h hu
    obtain rfl := Except.ok.inj (hs'.read.symm.trans hs.read)
    obtain ⟨tok, htok, hstart⟩ := hs.start
    obtain ⟨tok', htok', hstart'⟩ := hs'.start
    have := start_lt hs.read htok' htok (located_lt hs'.at_site hs.at_site hj)
    omega
  have hbind : (TestCase.findAgain? (file.tests.map Test.case) r).bind (file.tests[·]?) = some t := by
    rw [hfind]
    exact ht
  simp only [locate, h, Except.mapError, bind, Except.bind, hbind]
  rfl

/-! ## 3. The pieces of a chain -/

/-- The pieces of the chain of a test: those up to the end of its call, the chained calls, and what
comes after them. -/
structure Standing (source : Text) (l : TokenSequence) (imports : Imports) (c : Nat) (t : Test)
    (A : List Piece) (cs : List ChainCall) (Q : List Piece) : Prop where
  cut : cut source = A ++ (cs.flatMap ChainCall.pieces ++ Q)
  closes : Closes A
  count : countIn A = c + 1
  ends : Ends Q
  chain : t.chain = readChain imports (Reading.extent A) cs

theorem exists_close {o c : Nat} {keyword : Keyword} (hl : tokenize source = .ok l)
    (hs : siteAt l o = some (keyword, c)) :
    ∃ A R, cut source = A ++ R ∧ Closes A ∧ countIn A = c + 1 := by
  obtain ⟨-, hopen, hpartner⟩ := siteAt_eq_some hs
  have hkind : l.kindAt c = some .closeParen :=
    of_decide_eq_true (isKind_close (nested_of_tokenize hl) hopen hpartner)
  obtain ⟨tok, htok, hclose⟩ := Option.map_eq_some_iff.mp hkind
  obtain ⟨A, p, R, hcut, hp, -, hcount, -, -⟩ := exists_piece hl htok
  rw [hclose] at hp
  refine ⟨A ++ [p], R, by rw [hcut]; simp, ⟨A, p, rfl, hp⟩, ?_⟩
  rw [countIn_append, countIn_singleton hp, hcount]

theorem Standing.of_cut {groups : List Text} {o c : Nat} {keyword : Keyword} {tok : Token}
    {imports : Imports} {A Q : List Piece} {cs : List ChainCall} (hl : tokenize source = .ok l)
    (hcut : Source.cut source = A ++ (cs.flatMap ChainCall.pieces ++ Q)) (hA : Closes A)
    (hcount : countIn A = c + 1) (hQ : Ends Q) :
    Standing source l imports c (testAt l source imports groups keyword o c tok) A cs Q := by
  refine ⟨hcut, hA, hcount, hQ, ?_⟩
  have hchain := chainFrom_of_cut hl hcut hA hQ imports
  rwa [hcount] at hchain

theorem Sited.exists_standing {file : File} {t : Test} {o c : Nat} {keyword : Keyword}
    (h : Sited source l file i o c keyword t) :
    ∃ A cs Q, Standing source l file.imports c t A cs Q := by
  obtain ⟨A, R, hcut, hA, hcount⟩ := exists_close h.read h.site
  obtain ⟨cs, Q, rfl, hQ⟩ := exists_chain R.length h.read hcut (Nat.le_refl _)
  obtain ⟨groups, tok, -, rfl⟩ := h.test
  exact ⟨A, cs, Q, .of_cut h.read hcut hA hcount hQ⟩

/-- The links of a test are those its calls declare. -/
theorem Sited.case_links {file : File} {t : Test} {o c : Nat} {keyword : Keyword}
    (h : Sited source l file i o c keyword t) :
    t.case.links = (t.chain.filter Call.isLink).flatMap Call.links := by
  obtain ⟨groups, tok, -, rfl⟩ := h.test
  rfl

/-- The links of a test are those its chain declares. -/
theorem Sited.links {file : File} {t : Test} {o c : Nat} {keyword : Keyword}
    (h : Sited source l file i o c keyword t) {A Q : List Piece} {cs : List ChainCall}
    (hs : Standing source l file.imports c t A cs Q) :
    t.case.links = cs.flatMap (ChainCall.links file.imports) := by
  rw [h.case_links, hs.chain, links_readChain]

/-- The calls up to the last that declares links, and those after it. -/
theorem exists_last_link (cs : List ChainCall) :
    ∃ cs₁ cs₂, cs = cs₁ ++ cs₂ ∧ (∀ c ∈ cs₂, c.isLink = false) ∧
      (cs₁ = [] ∨ ∃ cs₀ c, cs₁ = cs₀ ++ [c] ∧ c.isLink = true) := by
  induction cs using List.reverseRecOn with
  | nil => exact ⟨[], [], rfl, by simp, .inl rfl⟩
  | append_singleton cs c ih =>
    by_cases hc : c.isLink = true
    · exact ⟨cs ++ [c], [], by simp, by simp, .inr ⟨cs, c, rfl, hc⟩⟩
    · obtain ⟨cs₁, cs₂, rfl, hnone, hlast⟩ := ih
      refine ⟨cs₁, cs₂ ++ [c], by simp, fun d hd => ?_, hlast⟩
      obtain hd | hd := List.mem_append.mp hd
      · exact hnone d hd
      · obtain rfl := List.mem_singleton.mp hd
        exact Bool.eq_false_iff.mpr hc

theorem readChain_append (imports : Imports) (offset : Nat) (cs ds : List ChainCall) :
    readChain imports offset (cs ++ ds) = readChain imports offset cs ++
      readChain imports (offset + Reading.extent (cs.flatMap ChainCall.pieces)) ds := by
  induction cs generalizing offset with
  | nil => rfl
  | cons c cs ih =>
    rw [List.cons_append, readChain, ih, readChain, List.cons_append, List.flatMap_cons, extent_append,
      Nat.add_assoc]

theorem filter_readChain_of_none (imports : Imports) (offset : Nat) {cs : List ChainCall}
    (h : ∀ c ∈ cs, c.isLink = false) : (readChain imports offset cs).filter Call.isLink = [] := by
  induction cs generalizing offset with
  | nil => rfl
  | cons c cs ih =>
    rw [readChain, List.filter_cons, c.isLink_read, if_neg (by simp [h c (by simp)])]
    exact ih _ fun d hd => h d (List.mem_cons_of_mem _ hd)

/-- A chained call is read of some pieces of the chain. -/
theorem exists_of_mem_readChain {imports : Imports} {offset : Nat} {cs : List ChainCall} {d : Call}
    (h : d ∈ readChain imports offset cs) : ∃ cs₁ c cs₂, cs = cs₁ ++ c :: cs₂ ∧
      d = c.read imports (offset + Reading.extent (cs₁.flatMap ChainCall.pieces)) := by
  induction cs generalizing offset with
  | nil => cases h
  | cons c cs ih =>
    obtain rfl | h := List.mem_cons.mp h
    · exact ⟨[], c, cs, rfl, rfl⟩
    · obtain ⟨cs₁, c', cs₂, rfl, rfl⟩ := ih h
      refine ⟨c :: cs₁, c', cs₂, rfl, ?_⟩
      rw [List.flatMap_cons, extent_append, Nat.add_assoc]

theorem closes_calls {A : List Piece} (hA : Closes A) (cs : List ChainCall) :
    Closes (A ++ cs.flatMap ChainCall.pieces) := by
  induction cs using List.reverseRecOn with
  | nil => simpa using hA
  | append_singleton cs c _ =>
    refine ⟨A ++ cs.flatMap ChainCall.pieces ++ (c.head ++ c.body), ⟨.token .closeParen, c.closer⟩, ?_, rfl⟩
    rw [List.flatMap_append, List.flatMap_singleton, c.exists_closer]
    simp

/-- The declarations of a test end where its last call that declares links does, or its own call. -/
theorem Standing.point {imports : Imports} {o c : Nat} {keyword : Keyword} {file : File}
    {A Q : List Piece} {cs₁ cs₂ : List ChainCall} {t : Test}
    (hsited : Sited source l file i o c keyword t)
    (h : Standing source l imports c t A (cs₁ ++ cs₂) Q) (hnone : ∀ c ∈ cs₂, c.isLink = false)
    (hlast : cs₁ = [] ∨ ∃ cs₀ c, cs₁ = cs₀ ++ [c] ∧ c.isLink = true) :
    t.case.declarationPoint = Reading.extent (A ++ cs₁.flatMap ChainCall.pieces) := by
  have hpoint : t.case.declarationPoint =
      ((t.chain.filter Call.isLink).getLast?.map Call.stop).getD (l.stopAt c) := by
    obtain ⟨groups, tok, -, rfl⟩ := hsited.test
    rfl
  have hfilter : t.chain.filter Call.isLink =
      (readChain imports (Reading.extent A) cs₁).filter Call.isLink := by
    rw [h.chain, readChain_append, List.filter_append, filter_readChain_of_none _ _ hnone,
      List.append_nil]
  rw [hpoint, hfilter]
  obtain rfl | ⟨cs₀, d, rfl, hd⟩ := hlast
  · obtain ⟨hstop, -⟩ := stopAt_of_closes hsited.read h.cut h.closes
    rw [h.count, Nat.add_sub_cancel] at hstop
    simp [readChain, hstop]
  · rw [readChain_append, List.filter_append, readChain, List.filter_cons, d.isLink_read, if_pos hd]
    simp [readChain, ChainCall.read, extent_append, Nat.add_assoc]

/-- Where the call of a test ends, and the calls chained to it begin. -/
def Test.callStop (t : Test) : Nat := (t.chain.head?.map (·.gap.start)).getD t.case.declarationPoint

/-- No statement that imports classes reaches into the chain of a test: it ends before the chained
calls, or it begins after the last of them that declares links. -/
def ClearOfImports (source : Text) (t : Test) : Prop :=
  ∀ l i stop, tokenize source = .ok l → Imported l i stop →
    (∃ u, l.tokens[stop]? = some u ∧ u.span.stop ≤ t.callStop) ∨
      ∃ u, l.tokens[i]? = some u ∧ t.case.declarationPoint ≤ u.span.start

/-- True if every statement that a word `use` can begin ends before the calls chained to a test. -/
def usesBefore (source : Text) (t : Test) : Bool :=
  (tokenize source).toOption.all fun l => (List.range l.tokens.size).all fun i =>
    !(l.tokens[i]?).any (·.isWord "use") ||
      (l.tokens[statementStop l (i + 1)]?).any (·.span.stop ≤ t.callStop)

theorem clearOfImports_of_usesBefore {t : Test} (h : usesBefore source t = true) :
    ClearOfImports source t := by
  rintro l i stop hl ⟨s, u, -, hu, himports, rfl⟩
  rw [usesBefore, hl] at h
  have hi : i < l.tokens.size := (Array.getElem?_eq_some_iff.mp hu).1
  have hword : u.isWord "use" = true := by
    rw [importsAt, Bool.and_eq_true, Bool.and_eq_true, Bool.and_eq_true] at himports
    exact himports.1.1.1
  have hall := List.all_eq_true.mp (h : List.all _ _ = true) i (List.mem_range.mpr hi)
  rw [hu, Option.any_some, hword, Bool.not_true, Bool.false_or] at hall
  obtain ⟨v, hv, hle⟩ := (Option.any_eq_true _ _).mp hall
  exact .inl ⟨v, hv, of_decide_eq_true hle⟩

/-- A token that ends where some pieces do, or before, is one of them. -/
theorem lt_of_stop_le {A R : List Piece} (hl : tokenize source = .ok l) (hcut : cut source = A ++ R)
    (hA : Closes A) {u : Token} (hu : l.tokens[i]? = some u) (hle : u.span.stop ≤ Reading.extent A) :
    i < countIn A := by
  obtain ⟨B, p, S, hB, hp, -, rfl, -, hstop⟩ := exists_piece hl hu
  by_contra hge
  obtain ⟨A₀, q, rfl, hq⟩ := hA.last
  have hbegins : A₀ ++ [q] <+: B := by
    refine prefix_of_count (C := cut source) ⟨R, hcut.symm⟩ ⟨p :: S, hB.symm⟩ ?_
    rw [countIn_append, countIn_singleton hq] at hge
    omega
  obtain ⟨T, rfl⟩ := hbegins
  have := extent_pos_of_token hB hp
  rw [extent_append, extent_append] at hstop
  omega

/-- A token that starts where some pieces end, or after, is none of them. -/
theorem le_of_le_start {A R : List Piece} (hl : tokenize source = .ok l) (hcut : cut source = A ++ R)
    {u : Token} (hu : l.tokens[i]? = some u) (hle : Reading.extent A ≤ u.span.start) :
    countIn A ≤ i := by
  obtain ⟨B, p, S, hB, hp, -, rfl, hstart, -⟩ := exists_piece hl hu
  by_contra hlt
  have hbegins : B ++ [p] <+: A :=
    prefix_of_count (C := cut source) ⟨S, by rw [hB]; simp⟩ ⟨R, hcut.symm⟩ (by omega)
  obtain ⟨T, rfl⟩ := hbegins
  have := extent_pos_of_token hB hp
  rw [extent_append, extent_append] at hle
  omega

theorem Standing.callStop {imports : Imports} {o c : Nat} {keyword : Keyword} {file : File}
    {A Q : List Piece} {cs : List ChainCall} {t : Test}
    (hsited : Sited source l file i o c keyword t) (h : Standing source l imports c t A cs Q) :
    t.callStop = Reading.extent A := by
  rw [Test.callStop, h.chain]
  cases cs with
  | nil =>
    have hnil : Standing source l imports c t A ([] ++ []) Q := h
    have hpoint := hnil.point hsited (by simp) (.inl rfl)
    simpa [readChain] using hpoint
  | cons d ds => rfl

/-- Imports that do not reach into a chain stand apart from its pieces. -/
theorem Standing.apart {imports : Imports} {o c : Nat} {keyword : Keyword} {file : File}
    {A Q : List Piece} {cs₁ cs₂ : List ChainCall} {t : Test}
    (hsited : Sited source l file i o c keyword t)
    (h : Standing source l imports c t A (cs₁ ++ cs₂) Q)
    (hpoint : t.case.declarationPoint = Reading.extent (A ++ cs₁.flatMap ChainCall.pieces))
    (hclear : ClearOfImports source t) :
    Apart l c (countIn (A ++ cs₁.flatMap ChainCall.pieces)) := by
  intro j stop hj
  have hcut := h.cut
  obtain ⟨u, hu, hle⟩ | ⟨u, hu, hle⟩ := hclear l j stop hsited.read hj
  · rw [h.callStop hsited] at hle
    have := lt_of_stop_le hsited.read hcut h.closes hu hle
    rw [h.count] at this
    exact .inl (by omega)
  · rw [hpoint] at hle
    refine .inr (le_of_le_start (R := cs₂.flatMap ChainCall.pieces ++ Q) hsited.read ?_ hu hle)
    rw [hcut]
    simp

/-! ## 4. Sources whose chains are edited -/

theorem getElem?_of_forall₂ {α β : Type} {r : α → β → Prop} {xs : List α} {ys : List β}
    (h : List.Forall₂ r xs ys) {x : α} (hx : xs[i]? = some x) : ∃ y, ys[i]? = some y ∧ r x y := by
  induction h generalizing i with
  | nil => cases hx
  | @cons a b xs ys hab rest ih =>
    cases i with
    | zero =>
      obtain rfl : a = x := by simpa using hx
      exact ⟨b, rfl, hab⟩
    | succ i => exact ih (by simpa using hx)

/-- A source whose chain of the test at the index `i` is edited: what is read of it. -/
structure Edited (source : Text) (l : TokenSequence) (file : File) (i : Nat) (t : Test) (out : Text)
    (file' : File) (t' : Test) : Prop where
  read : File.read out = .ok file'
  imports : file'.imports = file.imports
  length : file'.tests.length = file.tests.length
  others : ∀ j, j ≠ i → (file'.tests[j]?).map (·.case.links) = (file.tests[j]?).map (·.case.links)
  test : file'.tests[i]? = some t'
  start : t'.case.span.start = t.case.span.start
  name : Titled l source → t'.case.name = t.case.name
  identifier : Titled l source → t'.case.identifier = t.case.identifier

/-- After an edit of its chain a test stands where it stood, in a file of as many tests. -/
theorem Sited.relocated {file : File} {t : Test} {o c : Nat} {keyword : Keyword}
    (h : Sited source l file i o c keyword t) {out : Text} {A R Q : List Piece} {cs : List ChainCall}
    (hA : Closes A) (hcount : countIn A = c + 1) (hcut : cut source = A ++ R)
    (hcut' : cut out = A ++ (cs.flatMap ChainCall.pieces ++ Q)) (hQ : Ends Q)
    (hread : tokenize out = .ok l') (hframe : Frame o source l out l') :
    ∃ file' t', Sited out l' file' i o c keyword t' ∧
      Standing out l' file'.imports c t' A cs Q ∧ file'.tests.length = file.tests.length ∧
      t'.case.span.start = t.case.span.start := by
  have hkept := hframe.tests (Imports.ofTokens l')
  have hsites : (located l source file.imports).map Prod.fst =
      (located l source (Imports.ofTokens l')).map Prod.fst := located_sites _ _
  obtain ⟨t₀, ht₀⟩ : ∃ t₀, (located l source (Imports.ofTokens l'))[i]? = some (o, t₀) := by
    have hi := congrArg (·[i]?) hsites
    simp only [List.getElem?_map, h.at_site, Option.map_some] at hi
    obtain ⟨⟨o', t₀⟩, hp, rfl⟩ := Option.map_eq_some_iff.mp hi.symm
    exact ⟨t₀, hp⟩
  -- the test called at the same token
  obtain ⟨⟨o', t'⟩, hp', hpair⟩ := getElem?_of_forall₂ hkept ht₀
  obtain rfl : o' = o := hpair.site.mpr rfl
  obtain ⟨keyword', c', tok', hsite', htok', htest'⟩ := siteAt_of_mem_located (List.mem_of_getElem? hp')
  dsimp only at hsite' htok' htest'
  have hb := begins_of_cut hcut hcut' h.read hread
  have hsite : siteAt l' o' = some (keyword, c) :=
    siteAt_begins h.site hb (by rw [← countIn, hcount]; omega)
  obtain ⟨rfl, rfl⟩ := Prod.mk.inj (Option.some.inj (hsite'.symm.trans hsite))
  obtain ⟨tok, htok, hstart⟩ := h.start
  have hlt : o' < countIn A := by
    obtain ⟨-, hopen, hpartner⟩ := siteAt_eq_some h.site
    have := lt_of_openParen (nested_of_tokenize h.read) hopen hpartner
    omega
  refine ⟨⟨_, (located l' out (Imports.ofTokens l')).map Prod.snd⟩, t',
    ⟨hread, rfl, rfl, hp', hsite, _, tok', htok', htest'⟩, ?_, ?_, ?_⟩
  · rw [htest']
    exact .of_cut hread hcut' hA hcount hQ
  · have hlength := congrArg List.length hsites
    rw [List.length_map, List.length_map] at hlength
    rw [h.tests, List.length_map, List.length_map, hlength, hkept.length_eq]
  · rw [hstart, htest']
    exact start_of_begins h.read hread hcut hcut' hlt htok htok'

/-- The splices of an edit of a chain can be carried out together, and but for that chain the source is
read as before. -/
theorem Sited.exists_changed {file : File} {t : Test} {o c : Nat} {keyword : Keyword}
    (h : Sited source l file i o c keyword t) {P P' Q : List Piece} {splices : List Splice}
    (hchanges : Changes l (c + 1) ("<?".toList <:+: source) P splices P')
    (hcut : cut source = P ++ Q) (hsp : Spaced (cut source)) (hapart : Apart l c (countIn P)) :
    ∃ l', applyEdit source splices = .ok ((P' ++ Q).flatMap Piece.text) ∧
      Changed o source l (P' ++ Q) l' := by
  obtain ⟨l', hweave, hchanged⟩ := hchanges.edited rfl (begins_of_cut hcut hcut h.read h.read) h.read
    hcut (by rwa [hcut] at hsp) h.site hapart id
  refine ⟨l', ?_, hchanged⟩
  rw [applyEdit, hchanges.apply_eq hcut, hweave]
  rfl

/-- The tests of two sources stand at the same positions, and all but one declare the same links. -/
theorem Frame.others {o : Nat} {out : Text} {imports : Imports} {t : Test} (h : Frame o source l out l')
    (hat : (located l source imports)[i]? = some (o, t)) {j : Nat} (hj : j ≠ i) :
    ((located l' out imports)[j]?).map (·.2.case.links) =
      ((located l source imports)[j]?).map (·.2.case.links) := by
  have hkept := h.tests imports
  cases hq : (located l source imports)[j]? with
  | none =>
    have hlen := List.getElem?_eq_none_iff.mp hq
    rw [hkept.length_eq] at hlen
    rw [List.getElem?_eq_none_iff.mpr hlen]
  | some q =>
    obtain ⟨q', hq', hpq⟩ := getElem?_of_forall₂ hkept hq
    have hne : q.1 ≠ o := by
      intro he
      have := located_lt hq hat
      have := located_lt hat hq
      omega
    rw [hq']
    exact congrArg some (hpq.links hne)

/-- After an edit of its chain a test stands where it stood, and all others declare what they
declared. -/
theorem exists_edited {file : File} {t : Test} {o c : Nat} {keyword : Keyword}
    (h : Sited source l file i o c keyword t) {A P P' Q : List Piece} {cs' : List ChainCall}
    {splices : List Splice} (hA : Closes A) (hcount : countIn A = c + 1)
    (hchanges : Changes l (c + 1) ("<?".toList <:+: source) P splices P')
    (hcut : cut source = P ++ Q) (hPA : A <+: P) {Q' : List Piece}
    (hcut' : P' ++ Q = A ++ (cs'.flatMap ChainCall.pieces ++ Q')) (hQ' : Ends Q')
    (hsp : Spaced (cut source)) (hapart : Apart l c (countIn P)) :
    ∃ out l' file' t', applyEdit source splices = .ok out ∧ Edited source l file i t out file' t' ∧
      out = (P' ++ Q).flatMap Piece.text ∧
      Sited out l' file' i o c keyword t' ∧ Standing out l' file'.imports c t' A cs' Q' := by
  obtain ⟨l', happly, hchanged⟩ := h.exists_changed hchanges hcut hsp hapart
  have hcutOut : cut ((P' ++ Q).flatMap Piece.text) = A ++ (cs'.flatMap ChainCall.pieces ++ Q') :=
    hchanged.cut.trans hcut'
  have hframe := hchanged.frame
  have hread' := hchanged.read
  obtain ⟨out, hout⟩ : ∃ out, out = (P' ++ Q).flatMap Piece.text := ⟨_, rfl⟩
  rw [← hout] at happly hcutOut hframe hread'
  obtain ⟨S, rfl⟩ := hPA
  have hcutA : cut source = A ++ (S ++ Q) := by rw [hcut, List.append_assoc]
  obtain ⟨file', t', hsited, hstanding, hlength, hstart⟩ :=
    h.relocated hA hcount hcutA hcutOut hQ' hread' hframe
  have himports : file'.imports = file.imports :=
    hsited.imports.trans (hchanged.imports.trans h.imports.symm)
  have hkept := hframe.tests file'.imports
  have hat := h.at_site
  rw [← himports] at hat
  obtain ⟨p, hp, hpair⟩ := getElem?_of_forall₂ hkept hat
  obtain rfl := Option.some.inj (hsited.at_site.symm.trans hp)
  obtain ⟨hfile, htest⟩ := hsited.file_read
  refine ⟨out, l', file', t', happly,
    ⟨hfile, himports, hlength, fun j hj => ?_, htest, hstart, hpair.name, hpair.identifier⟩, hout,
    hsited, hstanding⟩
  rw [h.tests, hsited.tests, ← himports, List.getElem?_map, List.getElem?_map, Option.map_map,
    Option.map_map]
  exact hframe.others hat hj

end Crosslink.FluentChain
