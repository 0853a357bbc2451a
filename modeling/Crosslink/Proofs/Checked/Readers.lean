import Crosslink.Proofs.Conflicts
import Crosslink.Proofs.Checked.Declarations
import Crosslink.Proofs.Checked.Lines

/-!
# Reading tests and production classes with every access checked

The readers of both styles of tests, and of production classes, with the tokens they need looked up
by index, the spans of tests made from two offsets that have to be in order, and the text of a
documentation comment cut out of the source at its span. The walk along a chain of calls goes on for
as long as there are calls, each of which has to end after it begins.

For every source they have a result, which is that of the reader they check.

* §1 Lists put together from parts.
* §2 Chained calls.
* §3 Attribute lists.
* §4 Production classes.

## Main statements

* `FluentChain.Checked.read_eq`, `AttributeList.Checked.read_eq`, `Production.Checked.readClasses_eq`.
-/

namespace Crosslink

/-! ## 1. Lists put together from parts -/

/-- The lists that the elements of a list give, put together; there is none when one of them gives
none. -/
def gather {α β : Type} (f : α → Option (List β)) : List α → Option (List β)
  | [] => some []
  | x :: xs => do
    let ys ← f x
    let zs ← gather f xs
    some (ys ++ zs)

theorem gather_eq {α β : Type} {f : α → Option (List β)} {g : α → List β} {xs : List α}
    (h : ∀ x ∈ xs, f x = some (g x)) : gather f xs = some (xs.flatMap g) := by
  induction xs with
  | nil => rfl
  | cons x xs ih =>
    rw [gather, h x (by simp), ih fun y hy => h y (by simp [hy])]
    rfl

namespace Source.Checked

/-- What `f` reads from the tokens of a source. -/
def readWith {α : Type} (f : TokenSequence → Imports → Option α) (source : Text) :
    Option (Except SyntaxError α) := do
  match ← tokenize source with
  | .error e => some (.error e)
  | .ok l =>
    let imports ← importsOf l
    let a ← f l imports
    some (.ok a)

theorem readWith_eq {α : Type} {f : TokenSequence → Imports → Option α}
    {g : TokenSequence → Imports → α} {source : Text}
    (h : ∀ l, Source.tokenize source = .ok l →
      f l (Imports.ofTokens l) = some (g l (Imports.ofTokens l))) :
    readWith f source = some ((Source.tokenize source).map fun l => g l (Imports.ofTokens l)) := by
  unfold readWith
  rw [tokenize_eq, Option.bind_eq_bind, Option.bind_some]
  cases hl : Source.tokenize source with
  | error e => rfl
  | ok l =>
    simp only [importsOf_eq hl, Option.bind_eq_bind, Option.bind_some, h l hl]
    rfl

end Source.Checked

/-! ## 2. Chained calls -/

namespace FluentChain.Checked

open Source Source.TokenSequence

/-- The call whose arrow is the token at an index, and the index of its closing parenthesis. The
token before the arrow is looked up for the gap. -/
def callAt (l : TokenSequence) (source : Text) (imports : Imports) (i : Nat) :
    Option (Option (Call × Nat)) :=
  match (l.tokens[i]?).filter (·.kind = .arrow), (l.tokens[i + 1]?).filter (·.kind = .name),
    (l.tokens[i + 2]?).filter (·.kind = .openParen) with
  | some arrow, some name, some opener =>
    match opener.partner with
    | none => some none
    | some close => do
      let arguments ← Source.Checked.arguments l source (i + 2)
      let last ← l.tokens[close]?
      let before ← if 0 < i then l.tokens[i - 1]? else none
      let gap ← Span.between? before.span.stop arrow.span.start
      some (some ({ name := name.text
                    nameSpan := name.span
                    gap
                    stop := last.span.stop
                    arguments
                    targets := arguments.map (argumentTarget imports) }, close))
  | _, _, _ => some none

/-- The calls chained to what ends before the token at an index. -/
def chainFrom (l : TokenSequence) (source : Text) (imports : Imports) (i : Nat) :
    Option (List Call) := do
  match ← callAt l source imports i with
  | none => some []
  | some (c, close) =>
    if _h : i ≤ close ∧ close < l.tokens.size then
      let rest ← chainFrom l source imports (close + 1)
      some (c :: rest)
    else none
termination_by l.tokens.size - i

/-- The keyword that the token `t` at `i` calls, with the index of the closing parenthesis. The token
before it is looked up unless there is none. -/
def keywordCall (l : TokenSequence) (i : Nat) (t : Token) : Option (Option (Keyword × Nat)) := do
  let before ← if i = 0 then some none else (l.tokens[i - 1]?).map some
  some do
    let keyword ← Keyword.ofToken t
    if before.any bars then none
    else
      let opener ← (l.tokens[i + 1]?).filter (·.kind = .openParen)
      some (keyword, ← opener.partner)

/-- The test called by the token `t` at `i`, whose closing parenthesis is the token `close`. -/
def testAt (l : TokenSequence) (source : Text) (imports : Imports) (groups : List Text)
    (keyword : Keyword) (i close : Nat) (t : Token) : Option Test := do
  let arguments ← Source.Checked.arguments l source (i + 1)
  let title := titleOf arguments
  let own := if keyword = .it then "it " ++ title else title
  let titles := groups ++ [own]
  let chain ← chainFrom l source imports (close + 1)
  let links := chain.filter Call.isLink
  let last ← l.tokens[close]?
  let span ← Span.between? t.span.start ((chain.getLast?.map Call.stop).getD last.span.stop)
  some
    { case :=
        { name := Text.join titleSeparator titles
          identifier := Text.join slugSeparator (titles.map slug)
          span
          declarationPoint := (links.getLast?.map Call.stop).getD last.span.stop
          links := links.flatMap Call.links
          style := .fluentChain }
      chain }

/-- The tests called from the token `i` on, inside the groups that are not closed yet. -/
def testsFrom (l : TokenSequence) (source : Text) (imports : Imports) (groups : List (Text × Nat))
    (i : Nat) : Option (List Test) :=
  if i < l.tokens.size then do
    let t ← l.tokens[i]?
    let groups := groups.filter fun g => i ≤ g.2
    match ← keywordCall l i t with
    | none => testsFrom l source imports groups (i + 1)
    | some (.describe, close) =>
      let arguments ← Source.Checked.arguments l source (i + 1)
      testsFrom l source imports (groups ++ [(titleOf arguments, close)]) (i + 2)
    | some (keyword, close) =>
      let test ← testAt l source imports (groups.map Prod.fst) keyword i close t
      let rest ← testsFrom l source imports groups (i + 2)
      some (test :: rest)
  else some []
termination_by l.tokens.size - i

/-- Read a file of tests. -/
def read (source : Text) : Option (Except SyntaxError File) :=
  Source.Checked.readWith (fun l imports =>
    (testsFrom l source imports [] 0).map fun tests => File.mk imports tests) source

/-- The test cases of a source text. -/
def readTests (source : Text) : Option (Except SyntaxError (List TestCase)) :=
  (read source).map fun file => file.map fun f => f.tests.map Test.case

variable {source : Text} {l : TokenSequence} {i : Nat} {t : Token}

theorem callAt_eq (hl : tokenize source = .ok l) (hi : 0 < i) (imports : Imports) :
    callAt l source imports i = some (FluentChain.callAt l source imports i) := by
  have hn := nested_of_tokenize hl
  unfold callAt FluentChain.callAt
  cases harrow : (l.tokens[i]?).filter (·.kind = .arrow) with
  | none => rfl
  | some arrow =>
    cases (l.tokens[i + 1]?).filter (·.kind = .name) with
    | none => rfl
    | some name =>
      cases hopener : (l.tokens[i + 2]?).filter (·.kind = .openParen) with
      | none => rfl
      | some opener =>
        obtain ⟨harrow, -⟩ := Option.filter_eq_some_iff.mp harrow
        obtain ⟨hopener, -⟩ := Option.filter_eq_some_iff.mp hopener
        simp only [Option.bind_eq_bind, Option.bind_some]
        cases hclose : opener.partner with
        | none => rfl
        | some close =>
          have hsize := hn.lt_size (partnerAt_eq_some.mpr ⟨opener, hopener, hclose⟩)
          have hisize : i < l.tokens.size := (Array.getElem?_eq_some_iff.mp harrow).1
          have hbefore := Array.getElem?_eq_getElem (show i - 1 < l.tokens.size by omega)
          have hle := stop_le_start hl hbefore harrow (by omega)
          simp only [Source.Checked.arguments_eq hl, Array.getElem?_eq_getElem hsize, if_pos hi,
            hbefore, Option.bind_some, Span.between?_of_le hle, if_neg (Nat.ne_of_gt hi),
            Source.Checked.stopAt_getElem hsize,
            Source.Checked.stopAt_getElem (show i - 1 < l.tokens.size by omega)]

/-- As many calls are chained as the tokens that are left allow. -/
theorem chainFrom_eq (hl : tokenize source = .ok l) (imports : Imports) (fuel : Nat) (hi : 0 < i)
    (hfuel : l.tokens.size ≤ fuel + i) :
    chainFrom l source imports i = some (FluentChain.chainFrom l source imports fuel i) := by
  have hn := nested_of_tokenize hl
  induction fuel generalizing i with
  | zero =>
    have htok : l.tokens[i]? = none := Array.getElem?_eq_none (by omega)
    have hcall : FluentChain.callAt l source imports i = none := by
      simp [FluentChain.callAt, htok]
    rw [chainFrom, callAt_eq hl hi, Option.bind_eq_bind, Option.bind_some, hcall]
    rfl
  | succ fuel ih =>
    rw [chainFrom, callAt_eq hl hi, Option.bind_eq_bind, Option.bind_some, FluentChain.chainFrom]
    cases hcall : FluentChain.callAt l source imports i with
    | none => rfl
    | some r =>
      obtain ⟨c, close⟩ := r
      obtain ⟨hcall, -⟩ := callAt_eq_some.mp hcall
      have hlt := hcall.lt hn
      have hsize := hn.lt_size hcall.partner
      have hrest := ih (i := close + 1) (by omega) (by omega)
      simp only [dif_pos (show i ≤ close ∧ close < l.tokens.size from ⟨by omega, hsize⟩), hrest,
        Option.bind_eq_bind, Option.bind_some]

theorem keywordCall_eq (ht : l.tokens[i]? = some t) :
    keywordCall l i t = some (FluentChain.keywordCall l i t) := by
  have hisize : i < l.tokens.size := (Array.getElem?_eq_some_iff.mp ht).1
  unfold keywordCall FluentChain.keywordCall
  by_cases hi : i = 0
  · simp only [hi, if_true, Option.bind_eq_bind, Option.bind_some]
    rfl
  · have hbefore := Array.getElem?_eq_getElem (show i - 1 < l.tokens.size by omega)
    simp only [hi, if_false, hbefore, Option.map_some, Option.bind_eq_bind, Option.bind_some]
    rfl

/-- A test ends after it begins. -/
theorem testAt_eq (hl : tokenize source = .ok l) (imports : Imports) (groups : List Text)
    (keyword : Keyword) {close : Nat} (ht : l.tokens[i]? = some t) (hle : i ≤ close)
    (hclose : close < l.tokens.size) :
    testAt l source imports groups keyword i close t =
      some (FluentChain.testAt l source imports groups keyword i close t) := by
  have hn := nested_of_tokenize hl
  obtain ⟨ds, hchained, hchain⟩ := exists_chained hn (close + 1)
  replace hchain := hchain source imports l.tokens.size (by omega)
  have hstop : t.span.start ≤
      (((FluentChain.chainFrom l source imports l.tokens.size (close + 1)).getLast?.map
        Call.stop).getD (l.stopAt close)) := by
    rw [hchain, List.getLast?_map]
    cases hlast : ds.getLast? with
    | none => exact (Covers.of_tokens hle ht hclose).fits hl |>.le
    | some d =>
      obtain ⟨hcall, hd⟩ := hchained.mem (List.mem_of_getLast? hlast) hn
      have hlt := hcall.lt hn
      exact (Covers.of_tokens (by omega) ht (hn.lt_size hcall.partner)).fits hl |>.le
  unfold testAt FluentChain.testAt
  simp only [Source.Checked.arguments_eq hl, chainFrom_eq hl imports l.tokens.size
    (Nat.succ_pos close) (by omega), Array.getElem?_eq_getElem hclose, Option.bind_eq_bind,
    Option.bind_some, ← Source.Checked.stopAt_getElem hclose, Span.between?_of_le hstop]

theorem testsFrom_eq (hl : tokenize source = .ok l) (imports : Imports)
    (groups : List (Text × Nat)) (i : Nat) :
    testsFrom l source imports groups i =
      some (FluentChain.testsFrom l source imports groups i) := by
  have hn := nested_of_tokenize hl
  rw [testsFrom, FluentChain.testsFrom]
  split
  · rename_i hi
    split
    · rename_i ht
      exact absurd ht (by simp [hi])
    · rename_i t ht
      simp only [ht, Option.bind_eq_bind, Option.bind_some, keywordCall_eq ht]
      cases hcall : FluentChain.keywordCall l i t with
      | none => exact testsFrom_eq hl imports _ (i + 1)
      | some r =>
        obtain ⟨keyword, close⟩ := r
        obtain ⟨-, -, hopen, hpartner⟩ := keywordCall_eq_some.mp hcall
        have hlt := lt_of_openParen hn hopen hpartner
        have hsize := hn.lt_size hpartner
        have htests := fun groups => testsFrom_eq hl imports groups (i + 2)
        have htest := fun groups => testAt_eq hl imports groups keyword ht (by omega) hsize
        cases keyword <;>
          simp only [Source.Checked.arguments_eq hl, htest, htests, Option.bind_some]
  · rename_i hi
    split
    · rfl
    · rename_i t ht
      exact absurd (Array.getElem?_eq_some_iff.mp ht).1 hi
termination_by l.tokens.size - i

/-- The tests of every source are read with every access in range. -/
theorem read_eq (source : Text) : read source = some (File.read source) := by
  rw [read, Source.Checked.readWith_eq (g := fun l imports =>
    ⟨imports, FluentChain.testsFrom l source imports [] 0⟩)
    fun l hl => by rw [testsFrom_eq hl]; rfl]
  rfl

theorem readTests_eq (source : Text) : readTests source = some (FluentChain.readTests source) := by
  rw [readTests, read_eq]
  rfl

end FluentChain.Checked

/-! ## 3. Attribute lists -/

namespace Source

variable {source : Text} {l : TokenSequence} {m : Method} {d : Span}

/-- The documentation comments among the pieces that a text begins with stand in it. -/
theorem fits_of_mem_docsIn {x y : Text} {ps : List Piece} (hd : d ∈ docsIn (Text.width x) ps) :
    d.Fits (x ++ (ps.flatMap Piece.text ++ y)) := by
  induction ps generalizing x with
  | nil => cases hd
  | cons p ps ih =>
    have hsource : x ++ ((p :: ps).flatMap Piece.text ++ y) =
        (x ++ p.text) ++ (ps.flatMap Piece.text ++ y) := by
      simp [List.append_assoc]
    rw [docsIn, ← Text.width_append] at hd
    rcases List.mem_append.mp hd with hd | hd
    · split at hd
      · obtain rfl := List.mem_singleton.mp hd
        refine ⟨by simp, ?_, ?_⟩
        · exact Text.isBoundary_width x _
        · rw [hsource]
          exact Text.isBoundary_width (x ++ p.text) _
      · cases hd
    · rw [hsource]
      exact ih hd

theorem fits_of_mem_docs (hl : tokenize source = .ok l) (hd : d ∈ l.docs) : d.Fits source := by
  rw [(bare_of_tokenize hl).2] at hd
  have hfits := fits_of_mem_docsIn (x := []) (y := []) hd
  rwa [List.append_nil, List.nil_append, cut_flatten] at hfits

namespace TokenSequence

variable {close i : Nat} {p : Pending} {t : Token}

theorem mem_docs_of_memberStep {next : Nat} {p' : Pending}
    (h : l.memberStep source close p i t = .found next p' m) : ∀ d ∈ m.doc, d ∈ l.docs := by
  have hmethod : l.methodStep close p i t = .found next p' m → ∀ d ∈ m.doc, d ∈ l.docs := by
    intro hs
    unfold methodStep at hs
    split at hs
    · cases hs
    · split at hs
      · cases hs
      · cases hs
        intro d hd
        exact List.mem_reverse.mp (List.mem_of_find?_eq_some hd)
  unfold memberStep at h
  split at h
  · split at h <;> cases h
  · split at h
    · cases h
    · split at h
      · exact hmethod h
      · repeat' split at h
        all_goals cases h

theorem mem_docs_of_mem_methodsFrom (hm : m ∈ l.methodsFrom source close p i) :
    ∀ d ∈ m.doc, d ∈ l.docs := by
  fun_induction methodsFrom l source close p i with
  | case1 p i hi htok => cases hm
  | case2 p i hi t ht next p' hstep ih => exact ih hm
  | case3 p i hi t ht next p' m' hstep ih =>
    rcases List.mem_cons.mp hm with rfl | hm
    · exact mem_docs_of_memberStep hstep
    · exact ih hm
  | case4 p i hi t ht hstep => cases hm
  | case5 p i hi => cases hm

theorem exists_methodsFrom {c : DeclaredClass} (hc : c ∈ l.classesFrom source i) (hm : m ∈ c.methods) :
    ∃ close p j, m ∈ l.methodsFrom source close p j := by
  fun_induction classesFrom l source i with
  | case1 i htok => cases hc
  | case2 i t ht name hbegins n hname hbody => cases hc
  | case3 i t ht name hbegins n hname body hbody close hclose ih =>
    rcases List.mem_cons.mp hc with rfl | hc
    · exact ⟨_, _, _, hm⟩
    · exact ih hc
  | case4 i t ht name hbegins n hname body hbody hclose ih => exact ih hc
  | case5 i t ht name hother ih => exact ih hc

end TokenSequence

end Source

namespace AttributeList.Checked

open Source Source.TokenSequence

/-- True for a method that is a test. Its documentation comment is cut out of the source. -/
def isTest (source : Text) (m : Method) : Option Bool :=
  if !m.isPublic || m.isAbstract then some false
  else if ("test" : Text).isPrefixOf m.name || m.attributes.any (·.has testName) then some true
  else match m.doc with
    | none => some false
    | some d => (d.slice? source).map (Text.contains "@test")

/-- The test that a method of a class is. -/
def testOf (source : Text) (imports : Imports) (className : Text) (m : Method) : Option Test := do
  let declarationPoint ← match (groupsWithLinks m).getLast? with
    | some g => some g.span.stop
    | none => Line.Checked.start source m.start
  let span ← Span.between? m.start m.stop
  some
    { case :=
        { name := m.name
          identifier := className ++ memberSeparator ++ m.name
          span
          declarationPoint
          links := (linkAttributes m).filterMap (linkOf imports)
          style := .attributeList }
      method := m }

/-- The tests among the methods of a class. -/
def testsIn (source : Text) (imports : Imports) (c : DeclaredClass) : Option (List Test) :=
  gather (fun m => do
    if ← isTest source m then (testOf source imports c.name m).map ([·]) else some []) c.methods

/-- Read a file of tests. -/
def read (source : Text) : Option (Except SyntaxError File) :=
  Source.Checked.readWith (fun l imports => do
    let classes ← Source.Checked.classes l source
    let tests ← gather (testsIn source imports) classes
    some ⟨imports, tests⟩) source

/-- The test cases of a source text. -/
def readTests (source : Text) : Option (Except SyntaxError (List TestCase)) :=
  (read source).map fun file => file.map fun f => f.tests.map Test.case

variable {source : Text} {l : TokenSequence} {m : Method} {c : DeclaredClass}

theorem isTest_eq (hl : tokenize source = .ok l) (hdoc : ∀ d ∈ m.doc, d ∈ l.docs) :
    isTest source m = some (AttributeList.isTest source m) := by
  unfold isTest AttributeList.isTest
  generalize (("test" : Text).isPrefixOf m.name || m.attributes.any (·.has testName)) = named
  cases hd : m.doc with
  | none => cases m.isPublic <;> cases m.isAbstract <;> cases named <;> rfl
  | some d =>
    have hfits := fits_of_mem_docs hl (hdoc d hd)
    simp only [hfits.slice?_eq, Option.map_some, Option.any_some]
    cases m.isPublic <;> cases m.isAbstract <;> cases named <;> rfl

theorem testOf_eq (hl : tokenize source = .ok l) (hm : MethodAt l source m) (imports : Imports)
    (className : Text) :
    testOf source imports className m = some (AttributeList.testOf source imports className m) := by
  obtain ⟨f, t, hwhole⟩ := hm.whole
  have hspan : Span.between? m.start m.stop = some m.span :=
    Span.between?_of_le (hwhole.fits hl).le
  have hstart : Line.Checked.start source m.start = some (Line.start source m.start) :=
    Line.Checked.start_eq (hwhole.fits hl).start
  unfold testOf AttributeList.testOf
  rw [hspan, hstart]
  cases (groupsWithLinks m).getLast? <;> rfl

theorem testsIn_eq (hl : tokenize source = .ok l) (hc : c ∈ l.classes source) (imports : Imports) :
    testsIn source imports c = some (AttributeList.testsIn source imports c) := by
  have hmethods : ∀ m ∈ c.methods, (do
      if ← isTest source m then (testOf source imports c.name m).map ([·]) else some []) =
      some (if AttributeList.isTest source m then [AttributeList.testOf source imports c.name m]
        else []) := by
    intro m hm
    obtain ⟨close, p, j, hmem⟩ := exists_methodsFrom hc hm
    rw [isTest_eq hl (mem_docs_of_mem_methodsFrom hmem), testOf_eq hl (methodAt_of_mem_classes hl hc hm)]
    cases AttributeList.isTest source m <;> rfl
  rw [testsIn, gather_eq hmethods, AttributeList.testsIn, ← List.filterMap_eq_map,
    List.filterMap_filter, List.filterMap_eq_flatMap_toList]
  congr 2
  funext m
  cases AttributeList.isTest source m <;> rfl

/-- The tests of every source are read with every access in range. -/
theorem read_eq (source : Text) : read source = some (File.read source) := by
  rw [read, Source.Checked.readWith_eq (g := fun l imports =>
    ⟨imports, (l.classes source).flatMap (AttributeList.testsIn source imports)⟩)
    fun l hl => by
      rw [Source.Checked.classes_eq hl, Option.bind_eq_bind, Option.bind_some,
        gather_eq fun c hc => testsIn_eq hl hc _]
      rfl]
  rfl

theorem readTests_eq (source : Text) :
    readTests source = some (AttributeList.readTests source) := by
  rw [readTests, read_eq]
  rfl

end AttributeList.Checked

/-! ## 4. Production classes -/

namespace Production.Checked

open Source Source.TokenSequence

/-- A method as the production side sees it. -/
def methodOf (imports : Imports) (m : Source.Method) : Option Method :=
  (Span.between? m.start m.stop).map fun span => ⟨m.name, span, testsNamed imports m.attributes⟩

/-- A class as the production side sees it. -/
def classOf (imports : Imports) (c : DeclaredClass) : Option Class :=
  (gather (fun m => (methodOf imports m).map ([·])) c.methods).map fun methods =>
    ⟨fullName imports c, methods⟩

/-- The classes of a source text. -/
def readClasses (source : Text) : Option (Except SyntaxError (List Class)) :=
  Source.Checked.readWith (fun l imports => do
    let classes ← Source.Checked.classes l source
    gather (fun c => (classOf imports c).map ([·])) classes) source

variable {source : Text} {l : TokenSequence} {c : DeclaredClass}

theorem classOf_eq (hl : tokenize source = .ok l) (hc : c ∈ l.classes source) (imports : Imports) :
    classOf imports c = some ⟨fullName imports c, c.methods.map (Production.methodOf imports)⟩ := by
  have hmethods : ∀ m ∈ c.methods, (methodOf imports m).map ([·]) =
      some [Production.methodOf imports m] := by
    intro m hm
    obtain ⟨f, t, hwhole⟩ := (methodAt_of_mem_classes hl hc hm).whole
    have hspan : Span.between? m.start m.stop = some m.span :=
      Span.between?_of_le (hwhole.fits hl).le
    rw [methodOf, hspan]
    rfl
  rw [classOf, gather_eq hmethods, ← List.map_eq_flatMap]
  rfl

/-- The classes of every source are read with every access in range. -/
theorem readClasses_eq (source : Text) : readClasses source = some (Production.readClasses source) := by
  rw [readClasses, Source.Checked.readWith_eq (g := fun l imports =>
    (l.classes source).map fun c =>
      ⟨fullName imports c, c.methods.map (Production.methodOf imports)⟩)
    fun l hl => by
      rw [Source.Checked.classes_eq hl, Option.bind_eq_bind, Option.bind_some,
        gather_eq fun c hc => by rw [classOf_eq hl hc]; rfl, ← List.map_eq_flatMap]]
  rfl

end Production.Checked

end Crosslink
