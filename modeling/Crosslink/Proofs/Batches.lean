import Crosslink.Framework
import Crosslink.Proofs.Keeping
import Crosslink.Proofs.Recognizing
import Crosslink.Proofs.Removals

/-!
# Batches of edits

All edits of a file are made for the cases that were recorded from its first text, each on the text that the
edits before it left. By then the tests start elsewhere, but each goes by its name and its identifier, and an
edit leaves those of all tests as they are. So every edit of the batch finds its own test, and touches nothing
but the stretch of the text where the links of that test are declared.

* §1 `FluentChain.Stepped`, what one edit of a chain leaves.
* §2 `AttributeList.Stepped`, what one edit of attribute lists leaves.
* §3 `Framework.step`, one edit of a batch; `Reached`, the texts that a batch comes to; `edits_confined`.
* §4 `edits_stray`, where an edit reaches another test.
-/

namespace Crosslink

open Source

variable {source text out : Text} {i : Nat} {r : TestCase}

/-- What holds of the result of a function that can fail can be computed. -/
instance decidableForallOk {ε α : Type} (x : Except ε α) (P : α → Prop) [DecidablePred P] :
    Decidable (∀ a, x = .ok a → P a) :=
  match x with
  | .error _ => .isTrue nofun
  | .ok a => decidable_of_iff (P a) ⟨fun h _ hb => Except.ok.inj hb ▸ h, fun h => h a rfl⟩

/-! ## §1 Chains -/

namespace FluentChain

instance (l : TokenSequence) (source : Text) : Decidable (Titled l source) :=
  decidable_of_iff (∀ i < l.tokens.size, (siteAt l i).isSome = true →
      (l.arguments source (i + 1)).isEmpty = true ∨
        (spelledTitle (l.arguments source (i + 1))).isSome = true) <| by
    refine ⟨fun h i r hr => ?_, fun h i _ hi => ?_⟩
    · obtain ⟨t, ht, -⟩ := Option.bind_eq_some_iff.mp hr
      rw [← List.isEmpty_iff]
      exact h i (Array.getElem?_eq_some_iff.mp ht).1 (by rw [hr]; rfl)
    · obtain ⟨r, hr⟩ := Option.isSome_iff_exists.mp hi
      rw [List.isEmpty_iff]
      exact h i r hr

variable {l : TokenSequence} {file : File} {t : Test} {o c : Nat} {keyword : Keyword} {A M Q : List Piece}
  {cs₁ cs₂ : List ChainCall} {splices : List Splice} {targets : List Target} {names : List Text}
  {covers : Bool}

/-- The title of every group and every test of a source is a quoted text. -/
def AllTitled (source : Text) : Prop := ∀ l, tokenize source = .ok l → Titled l source

instance (source : Text) : Decidable (AllTitled source) := inferInstanceAs (Decidable (∀ _, _ = _ → _))

/-- A source whose chains can be edited one after the other: the items of its calls can be told apart from what
is around them, and all titles are quoted texts. -/
structure Steady (source : Text) : Prop where
  spaced : Spaced (cut source)
  titled : AllTitled source

instance (source : Text) : Decidable (Steady source) :=
  decidable_of_iff (Spaced (cut source) ∧ AllTitled source)
    ⟨fun h => ⟨h.1, h.2⟩, fun h => ⟨h.spaced, h.titled⟩⟩

/-- What an edit of the test at the index `i` of a file leaves: the tests are confined to their links but for
that test, the text outside of its chain is kept, and the chains can be edited again. -/
structure Stepped (source out : Text) (file : File) (i : Nat) (t : Test) : Prop where
  confined : ∃ file', File.read out = .ok file' ∧
    Confined i (file.tests.map Test.case) (file'.tests.map Test.case)
  kept : KeptOutside source out t.callStop t.case.span.stop
  steady : Steady out

/-- Changes of a chain up to its last call that declares links are such an edit. -/
theorem stepped_of_changes (hsited : Sited source l file i o c keyword t)
    (h : Standing source l file.imports c t A (cs₁ ++ cs₂) Q)
    (hpoint : t.case.declarationPoint = Reading.extent (A ++ cs₁.flatMap ChainCall.pieces))
    (hchanges : Changes l (c + 1) ("<?".toList <:+: source) (A ++ cs₁.flatMap ChainCall.pieces) splices
      (A ++ M))
    (hsteady : Steady source) (hclear : ClearOfImports source t) (happly : applyEdit source splices = .ok out) :
    Stepped source out file i t := by
  have hcut : cut source = (A ++ cs₁.flatMap ChainCall.pieces) ++ (cs₂.flatMap ChainCall.pieces ++ Q) := by
    rw [h.cut]
    simp
  obtain ⟨l', happly', hchanged⟩ := hsited.exists_changed hchanges hcut hsteady.spaced
    (h.apart hsited hpoint hclear)
  obtain rfl := Except.ok.inj (happly'.symm.trans happly)
  have htitled := hsteady.titled l hsited.read
  obtain ⟨file', hread, -, hconfined⟩ := hsited.confined hchanged htitled
  refine ⟨⟨file', hread, hconfined⟩, h.keptOutside hsited, ?_, fun l₁ hl₁ => ?_⟩
  · rw [hchanged.cut]
    exact hchanged.spaced
  · obtain rfl := Except.ok.inj (hl₁.symm.trans hchanged.read)
    exact hchanged.frame.titled.mpr htitled

theorem stepped_of_inject (hread : File.read source = .ok file) (ht : file.tests[i]? = some t)
    (hlocate : locate source r = .ok (file, t)) (hnames : parseTargets names = .ok targets)
    (hsteady : Steady source) (hclear : ClearOfImports source t)
    (hw : ∀ w ∈ targets, Admissible source file.imports w) (h : inject source r names covers = .ok out) :
    Stepped source out file i t := by
  obtain ⟨l, o, c, keyword, hsited⟩ := exists_sited hread ht
  obtain ⟨A, cs, Q, hstanding⟩ := hsited.exists_standing
  obtain ⟨cs₁, cs₂, ws, rfl, -, hpoint, -, hchanges⟩ :=
    changes_of_inject hsited hstanding hsteady.spaced hw covers
  rw [inject_eq hlocate hnames] at h
  exact stepped_of_changes hsited hstanding hpoint hchanges hsteady hclear h

theorem stepped_of_remove (hread : File.read source = .ok file) (ht : file.tests[i]? = some t)
    (hlocate : locate source r = .ok (file, t)) (hnames : parseTargets names = .ok targets)
    (hsteady : Steady source) (hclear : ClearOfImports source t) (h : remove source r names = .ok out) :
    Stepped source out file i t := by
  obtain ⟨l, o, c, keyword, hsited⟩ := exists_sited hread ht
  obtain ⟨A, cs, Q, hstanding⟩ := hsited.exists_standing
  obtain ⟨cs₁, cs₂, rfl, hnone, hlast⟩ := exists_last_link cs
  rw [remove_eq hlocate hnames] at h
  exact stepped_of_changes hsited hstanding (hstanding.point hsited hnone hlast)
    (changes_of_remove targets hsited hstanding hnone hsteady.spaced) hsteady hclear h

end FluentChain

/-! ## §2 Attribute lists -/

namespace AttributeList

variable {file : File} {t : Test} {targets : List Target} {names : List Text} {covers : Bool}

/-- A source whose attribute lists can be edited one after the other: no class with a test has a name with a
backslash. -/
def Steady (source : Text) : Prop :=
  ∀ file, File.read source = .ok file → ∀ c ∈ file.tests.map Test.case, '\\' ∉ c.container

instance (source : Text) : Decidable (Steady source) := inferInstanceAs (Decidable (∀ _, _ = _ → _))

/-- True if nothing that can begin a declaration of a namespace or a statement that imports classes crosses the
places at which the groups of a test are written. -/
def neverCrossesAbove (source : Text) (t : Test) : Bool :=
  ((tokenize source).toOption.all fun l => neverCrosses l
    (pointOf l (anchorsBy AttributeGroup.holdsLink t.method) t.method.headStart) 40 {} 0) &&
  (tokenize source).toOption.all fun l => (List.range l.tokens.size).all fun q =>
    (l.tokens[q]?).all fun u => !(t.case.span.start ≤ u.span.start &&
      u.span.start < linkOffset source t.method) || neverCrosses l q 40 {} 0

theorem clearAbove_of_neverCrossesAbove (h : neverCrossesAbove source t = true) : ClearAbove source t := by
  obtain ⟨hplace, hstretch⟩ := Bool.and_eq_true_iff.mp h
  exact ⟨clearBetween_of_neverCrosses hstretch, clearOfImports_of_neverCrosses hplace⟩

/-- What an edit of the test at the index `i` of a file leaves: the tests are confined to their links but for
that test, and the text outside of the stretch from the line of its method to its name is kept. -/
structure Stepped (source out : Text) (file : File) (i : Nat) (t : Test) : Prop where
  confined : ∃ file', File.read out = .ok file' ∧
    Confined i (file.tests.map Test.case) (file'.tests.map Test.case)
  kept : KeptOutside source out (Line.start source t.method.start) t.method.nameSpan.start

theorem stepped_of_inject (hread : File.read source = .ok file) (ht : file.tests[i]? = some t)
    (hlocate : locate source r = .ok (file, t)) (hnames : parseTargets names = .ok targets)
    (hclear : ClearAbove source t)
    (hw : ∀ w ∈ targets, FluentChain.absent t.case.links w = true → Admissible source file.imports covers w)
    (h : inject source r names covers = .ok out) : Stepped source out file i t := by
  obtain ⟨out', file', t', hout, hedited, -⟩ := exists_injected hread ht hlocate hnames hclear hw
  obtain rfl := Except.ok.inj (hout.symm.trans h)
  exact ⟨⟨file', hedited.read, hedited.confined⟩, keptOutside_of_inject hlocate hnames h⟩

theorem stepped_of_remove (hread : File.read source = .ok file) (ht : file.tests[i]? = some t)
    (hlocate : locate source r = .ok (file, t)) (hnames : parseTargets names = .ok targets)
    (hprunable : Prunable source file.imports targets t.method) (h : remove source r names = .ok out) :
    Stepped source out file i t := by
  obtain ⟨file', t', hpruned, -⟩ := links_of_remove hread ht hlocate hnames hprunable.toEditable
    hprunable.groups h
  exact ⟨⟨file', hpruned.read, hpruned.confined⟩, keptOutside_of_remove hlocate hnames h⟩

/-- The identifiers of the tests say whether a source is steady. -/
theorem Steady.of_confined {file' : File} (h : Steady source) (hread : File.read source = .ok file)
    (hread' : File.read out = .ok file')
    (hconfined : Confined i (file.tests.map Test.case) (file'.tests.map Test.case)) : Steady out := by
  intro file₁ hread₁ c hc
  obtain rfl := Except.ok.inj (hread₁.symm.trans hread')
  have hlabel : c.label ∈ (file.tests.map Test.case).map TestCase.label :=
    hconfined.labels ▸ List.mem_map_of_mem hc
  obtain ⟨d, hd, hsame⟩ := List.mem_map.mp hlabel
  have hcontainer : c.container = d.container :=
    congrArg (fun label : Text × Text => (splitIdentifier label.2).1) hsame.symm
  rw [hcontainer]
  exact h file hread d hd

end AttributeList

/-! ## §3 Batches -/

theorem exists_of_bind_eq_ok {ε α β : Type} {x : Except ε α} {g : α → Except ε β} {b : β}
    (h : x >>= g = .ok b) : ∃ a, x = .ok a ∧ g a = .ok b := by
  cases x with
  | error e => cases h
  | ok a => exact ⟨a, rfl, h⟩

/-- What an edit of the links of a test asks for. -/
inductive LinkRequest where
  | inject (names : List Text) (covers : Bool)
  | remove (names : List Text)

namespace LinkRequest

/-- The identifiers of the methods that the edit is about. -/
def names : LinkRequest → List Text
  | inject names _ => names
  | remove names => names

/-- Edit the test that was recorded as `r`. -/
def carryOut (f : Framework) (source : Text) (r : TestCase) : LinkRequest → Except EditError Text
  | inject names covers => f.inject source r names covers
  | remove names => f.remove source r names

end LinkRequest

/-- What it takes for an edit of a chain to reach no other test. -/
def FluentChain.Suits (source : Text) (file : FluentChain.File) (t : FluentChain.Test) (targets : List Target) :
    LinkRequest → Prop
  | .inject _ _ => FluentChain.ClearOfImports source t ∧
      ∀ w ∈ targets, FluentChain.Admissible source file.imports w
  | .remove _ => FluentChain.ClearOfImports source t

/-- What it takes for an edit of attribute lists to reach no other test. -/
def AttributeList.Suits (source : Text) (file : AttributeList.File) (t : AttributeList.Test)
    (targets : List Target) : LinkRequest → Prop
  | .inject _ covers => AttributeList.ClearAbove source t ∧
      ∀ w ∈ targets, FluentChain.absent t.case.links w = true →
        AttributeList.Admissible source file.imports covers w
  | .remove _ => AttributeList.Prunable source file.imports targets t.method

namespace Framework

/-- A source whose tests can be edited one after the other. -/
def Steady : Framework → Text → Prop
  | pest => FluentChain.Steady
  | phpunit => AttributeList.Steady

instance (source : Text) : (f : Framework) → Decidable (f.Steady source)
  | pest => inferInstanceAs (Decidable (FluentChain.Steady source))
  | phpunit => inferInstanceAs (Decidable (AttributeList.Steady source))

/-- The edit of the test at an index of a source reaches no other test. -/
def Suits (source : Text) (i : Nat) (request : LinkRequest) : Framework → Prop
  | pest => ∀ file t targets, FluentChain.File.read source = .ok file → file.tests[i]? = some t →
      parseTargets request.names = .ok targets → FluentChain.Suits source file t targets request
  | phpunit => ∀ file t targets, AttributeList.File.read source = .ok file → file.tests[i]? = some t →
      parseTargets request.names = .ok targets → AttributeList.Suits source file t targets request

/-- The text is kept that stands outside of where the test at an index of a source declares its links: what is
chained to its call, or what stands above the name of its method, on the line on which the method starts and
below it. -/
def Keeps (source out : Text) (i : Nat) : Framework → Prop
  | pest => ∃ file t, FluentChain.File.read source = .ok file ∧ file.tests[i]? = some t ∧
      KeptOutside source out t.callStop t.case.span.stop
  | phpunit => ∃ file t, AttributeList.File.read source = .ok file ∧ file.tests[i]? = some t ∧
      KeptOutside source out (Line.start source t.method.start) t.method.nameSpan.start

variable {f : Framework} {request : LinkRequest} {cases : List TestCase} {c : TestCase}

/-- An edit that is carried out asks for methods that can be named. -/
theorem exists_targets (h : request.carryOut f source r = .ok out) :
    ∃ targets, parseTargets request.names = .ok targets := by
  cases request <;> cases f
  all_goals
    obtain ⟨⟨file, t⟩, -, h⟩ := exists_of_bind_eq_ok h
    obtain ⟨targets, hnames, -⟩ := exists_of_bind_eq_ok h
    exact ⟨targets, hnames⟩

/-- **One edit of a batch.** An edit that is made for a case with the name and the identifier of a test is made
in that test, wherever the case was recorded. The tests go by what they went by and all others declare what
they declared, and what is left can be edited in the same way. -/
theorem step (hread : f.readTests source = .ok cases) (hi : cases[i]? = some c) (hname : r.name = c.name)
    (hend : TestCase.isEndOf c.identifier r.identifier = true)
    (hnodup : (cases.map TestCase.identifier).Nodup) (hsteady : f.Steady source)
    (hsuits : f.Suits source i request) (h : request.carryOut f source r = .ok out) :
    TestCase.findAgain? cases r = some i ∧ f.Keeps source out i ∧ f.Steady out ∧
      ∃ new, f.readTests out = .ok new ∧ Confined i cases new := by
  obtain ⟨targets, hnames⟩ := exists_targets h
  cases f with
  | pest =>
    obtain ⟨file, hfile, rfl⟩ := exists_of_map_eq_ok hread
    obtain ⟨t, ht, rfl⟩ := Option.map_eq_some_iff.mp (List.getElem?_map.symm.trans hi)
    have hlocate := FluentChain.locate_of_named hfile ht hname hend hnodup
    have hstepped : FluentChain.Stepped source out file i t := by
      have hsuits := hsuits file t targets hfile ht hnames
      cases request with
      | inject names covers =>
        exact FluentChain.stepped_of_inject hfile ht hlocate hnames hsteady hsuits.1 hsuits.2 h
      | remove names => exact FluentChain.stepped_of_remove hfile ht hlocate hnames hsteady hsuits h
    obtain ⟨⟨file', hfile', hconfined⟩, hkept, hsteady'⟩ := hstepped
    exact ⟨findAgain_of_apart hi hname hend hnodup (FluentChain.not_trails hfile), ⟨file, t, hfile, ht, hkept⟩,
      hsteady', _, congrArg (Except.map _) hfile', hconfined⟩
  | phpunit =>
    obtain ⟨file, hfile, rfl⟩ := exists_of_map_eq_ok hread
    obtain ⟨t, ht, rfl⟩ := Option.map_eq_some_iff.mp (List.getElem?_map.symm.trans hi)
    have hplain := hsteady file hfile
    have hlocate := AttributeList.locate_of_named hfile ht hname hend hnodup hplain
    have hstepped : AttributeList.Stepped source out file i t := by
      have hsuits := hsuits file t targets hfile ht hnames
      cases request with
      | inject names covers =>
        exact AttributeList.stepped_of_inject hfile ht hlocate hnames hsuits.1 hsuits.2 h
      | remove names => exact AttributeList.stepped_of_remove hfile ht hlocate hnames hsuits h
    obtain ⟨⟨file', hfile', hconfined⟩, hkept⟩ := hstepped
    exact ⟨findAgain_of_apart hi hname hend hnodup (AttributeList.not_trails hfile hplain),
      ⟨file, t, hfile, ht, hkept⟩, hsteady.of_confined hfile hfile' hconfined, _,
      congrArg (Except.map _) hfile', hconfined⟩

end Framework

/-- The texts that come of a source when edits are made one after the other. Each is for a case that was
recorded from the first text, with what was qualified about its identifier; edits that fail leave the text. -/
inductive Reached (f : Framework) (source : Text) (cases : List TestCase) : Text → Prop
  | start : Reached f source cases source
  | step {text out : Text} {i : Nat} {c r : TestCase} {request : LinkRequest} (h : Reached f source cases text)
      (hi : cases[i]? = some c) (hr : FluentChain.Recorded c r) (hsuits : f.Suits text i request)
      (hedit : request.carryOut f text r = .ok out) : Reached f source cases out

variable {f : Framework} {request : LinkRequest} {cases old : List TestCase} {c : TestCase}

/-- A case that was recorded from a text in which the tests go by the same is one of a test at its index. -/
theorem exists_of_labels (hlabels : old.map TestCase.label = cases.map TestCase.label)
    (hi : cases[i]? = some c) : ∃ d, old[i]? = some d ∧ d.name = c.name ∧ d.identifier = c.identifier := by
  have hlabel : (old[i]?).map TestCase.label = some c.label := by
    rw [← List.getElem?_map, hlabels, List.getElem?_map, hi]
    rfl
  obtain ⟨d, hd, hsame⟩ := Option.map_eq_some_iff.mp hlabel
  exact ⟨d, hd, congrArg Prod.fst hsame, congrArg Prod.snd hsame⟩

/-- One edit of a batch, with a case that was recorded from the first text. -/
theorem Framework.step_of_labels (hold : f.readTests text = .ok old)
    (hlabels : old.map TestCase.label = cases.map TestCase.label) (hi : cases[i]? = some c)
    (hr : FluentChain.Recorded c r) (hnodup : (cases.map TestCase.identifier).Nodup) (hsteady : f.Steady text)
    (hsuits : f.Suits text i request) (h : request.carryOut f text r = .ok out) :
    TestCase.findAgain? old r = some i ∧ f.Keeps text out i ∧ f.Steady out ∧
      ∃ new, f.readTests out = .ok new ∧ Confined i old new := by
  obtain ⟨d, hd, hname, hidentifier⟩ := exists_of_labels hlabels hi
  have hidentifiers : old.map TestCase.identifier = cases.map TestCase.identifier := by
    have h := congrArg (List.map Prod.snd) hlabels
    rw [List.map_map, List.map_map] at h
    exact h
  exact f.step hold hd (hr.name.trans hname.symm) (hidentifier ▸ hr.identifier) (hidentifiers ▸ hnodup) hsteady
    hsuits h

/-- Whatever edits were made, the tests go by what they went by, and further edits can be made. -/
theorem Reached.labels (h : Reached f source cases text) (hread : f.readTests source = .ok cases)
    (hnodup : (cases.map TestCase.identifier).Nodup) (hsteady : f.Steady source) :
    ∃ now, f.readTests text = .ok now ∧ now.map TestCase.label = cases.map TestCase.label ∧ f.Steady text := by
  induction h with
  | start => exact ⟨cases, hread, rfl, hsteady⟩
  | step _ hi hr hsuits hedit ih =>
    obtain ⟨now, hnow, hlabels, hsteady⟩ := ih
    obtain ⟨-, -, hsteady, new, hnew, hconfined⟩ :=
      f.step_of_labels hnow hlabels hi hr hnodup hsteady hsuits hedit
    exact ⟨new, hnew, hconfined.labels.trans hlabels, hsteady⟩

/-- **Edits stay with their tests.** Whatever edits were made of a source with cases that were recorded from
it, the next one finds the test that its case was recorded from at the index at which it stood. The text that
is left holds the tests that the source holds, by the names and the identifiers they had; all but the one that
was edited declare what they declared, and all but where that one declares its links is kept. -/
theorem edits_confined (hread : f.readTests source = .ok cases)
    (hnodup : (cases.map TestCase.identifier).Nodup) (hsteady : f.Steady source)
    (hreached : Reached f source cases text) (hi : cases[i]? = some c) (hr : FluentChain.Recorded c r)
    (hsuits : f.Suits text i request) (h : request.carryOut f text r = .ok out) :
    ∃ old new, f.readTests text = .ok old ∧ f.readTests out = .ok new ∧
      TestCase.findAgain? old r = some i ∧ new.map TestCase.label = cases.map TestCase.label ∧
      Confined i old new ∧ f.Keeps text out i := by
  obtain ⟨old, hold, hlabels, hsteady⟩ := hreached.labels hread hnodup hsteady
  obtain ⟨hfound, hkeeps, -, new, hnew, hconfined⟩ :=
    f.step_of_labels hold hlabels hi hr hnodup hsteady hsuits h
  exact ⟨old, new, hold, hnew, hfound, hconfined.labels.trans hlabels, hconfined, hkeeps⟩

/-- A case as it is known in a namespace. -/
def inNamespace (ns : Text) (c : TestCase) : TestCase := { c with identifier := ns ++ '\\' :: c.identifier }

theorem recorded_inNamespace (ns : Text) (c : TestCase) : FluentChain.Recorded c (inNamespace ns c) := by
  refine ⟨rfl, ?_, rfl⟩
  have hsuffix : ("\\" ++ c.identifier : Text).isSuffixOf (ns ++ '\\' :: c.identifier) = true :=
    List.isSuffixOf_iff_suffix.mpr ⟨ns, rfl⟩
  rw [TestCase.isEndOf, inNamespace, hsuffix, Bool.or_true, Bool.true_or]

/-- Two edits that are made one after the other, with the cases of the first two tests of a source in a
namespace: what the second one leaves. -/
def Framework.EditsBoth (f : Framework) (source : Text) (first second : LinkRequest) : Prop :=
  ∃ cases a b text out old new, f.readTests source = .ok cases ∧ cases[0]? = some a ∧ cases[1]? = some b ∧
    first.carryOut f source (inNamespace "N" a) = .ok text ∧
    second.carryOut f text (inNamespace "N" b) = .ok out ∧ f.readTests text = .ok old ∧
    f.readTests out = .ok new ∧ TestCase.findAgain? old (inNamespace "N" b) = some 1 ∧
    new.map TestCase.label = cases.map TestCase.label ∧ Confined 1 old new ∧ f.Keeps text out 1

/-- True if links can be put into the test at an index of a source. -/
def Framework.injects (source : Text) (i : Nat) (names : List Text) (covers : Bool) : Framework → Bool
  | pest => (FluentChain.File.read source).toOption.all fun file => (file.tests[i]?).all fun t =>
      (parseTargets names).toOption.all fun targets =>
        FluentChain.usesBefore source t && targets.all fun w => FluentChain.Writable source file.imports w
  | phpunit => (AttributeList.File.read source).toOption.all fun file => (file.tests[i]?).all fun t =>
      (parseTargets names).toOption.all fun targets => AttributeList.neverCrossesAbove source t &&
        targets.all fun w => AttributeList.Admissible source file.imports covers w

theorem Framework.suits_of_injects {names : List Text} {covers : Bool}
    (h : f.injects source i names covers = true) : f.Suits source i (.inject names covers) := by
  cases f
  all_goals
    intro file t targets hread ht hnames
    rw [LinkRequest.names] at hnames
    simp only [injects, hread, ht, hnames, Except.toOption, Option.all_some, Bool.and_eq_true, List.all_eq_true,
      decide_eq_true_eq] at h
  case pest => exact ⟨FluentChain.clearOfImports_of_usesBefore h.1, fun w hw => (h.2 w hw).admissible⟩
  case phpunit => exact ⟨AttributeList.clearAbove_of_neverCrossesAbove h.1, fun w hw _ => h.2 w hw⟩

/-- Two tests, the first of which declares a link. -/
def Framework.twoTests : Framework → Text
  | pest => "use App\\X;\ntest('a')\n  ->links(X::class);\ntest('b');\n"
  | phpunit => "use App\\X;\nclass T \x7b\n    #[Links(X::class)]\n    function test_a() \x7b\x7d\n" ++
      "    function test_b() \x7b\x7d\n\x7d\n"

/-- What `twoTests` is after a link to a class was put into its first test. -/
def Framework.twoTestsLinked : Framework → Text
  | pest => "use App\\X;\ntest('a')\n  ->links(X::class)\n  ->links('C');\ntest('b');\n"
  | phpunit => "use App\\X;\nclass T \x7b\n    #[Links(X::class)]\n    #[Links(C::class)]\n" ++
      "    function test_a() \x7b\x7d\n    function test_b() \x7b\x7d\n\x7d\n"

theorem Framework.exists_edits (f : Framework) : ∃ cases a b out, f.readTests f.twoTests = .ok cases ∧
    cases[0]? = some a ∧ cases[1]? = some b ∧ (cases.map TestCase.identifier).Nodup ∧ f.Steady f.twoTests ∧
    f.Suits f.twoTests 0 (.inject ["C"] false) ∧
    (LinkRequest.inject ["C"] false).carryOut f f.twoTests (inNamespace "N" a) = .ok f.twoTestsLinked ∧
    f.Suits f.twoTestsLinked 1 (.inject ["App\\X"] true) ∧
    (LinkRequest.inject ["App\\X"] true).carryOut f f.twoTestsLinked (inNamespace "N" b) = .ok out := by
  have h : ((f.readTests f.twoTests).toOption.any fun cases => (cases[0]?).any fun a => (cases[1]?).any fun b =>
      (cases.map TestCase.identifier).Nodup &&
        (((LinkRequest.inject ["C"] false).carryOut f f.twoTests (inNamespace "N" a)).toOption ==
          some f.twoTestsLinked) &&
        ((LinkRequest.inject ["App\\X"] true).carryOut f f.twoTestsLinked
          (inNamespace "N" b)).toOption.isSome) = true := by
    cases f <;> decide +kernel
  have hinjects : f.injects f.twoTests 0 ["C"] false = true ∧
      f.injects f.twoTestsLinked 1 ["App\\X"] true = true := by
    cases f <;> decide +kernel
  obtain ⟨cases, hcases, h⟩ := (Option.any_eq_true _ _).mp h
  obtain ⟨a, ha, h⟩ := (Option.any_eq_true _ _).mp h
  obtain ⟨b, hb, h⟩ := (Option.any_eq_true _ _).mp h
  simp only [Bool.and_eq_true, decide_eq_true_eq, beq_iff_eq] at h
  obtain ⟨⟨hnodup, hfirst⟩, hsecond⟩ := h
  obtain ⟨out, hout⟩ := Option.isSome_iff_exists.mp hsecond
  refine ⟨cases, a, b, out, eq_ok_of_toOption hcases, ha, hb, hnodup, ?_, suits_of_injects hinjects.1,
    eq_ok_of_toOption hfirst, suits_of_injects hinjects.2, eq_ok_of_toOption hout⟩
  cases f <;> decide +kernel

/-- The second test is found where it stands when a link was put into the first. -/
theorem edits_confined_sample :
    Framework.EditsBoth .pest (Framework.twoTests .pest) (.inject ["C"] false) (.inject ["App\\X"] true) ∧
    Framework.EditsBoth .phpunit (Framework.twoTests .phpunit) (.inject ["C"] false)
      (.inject ["App\\X"] true) := by
  have hboth : ∀ f : Framework, f.EditsBoth f.twoTests (.inject ["C"] false) (.inject ["App\\X"] true) := by
    intro f
    obtain ⟨cases, a, b, out, hread, ha, hb, hnodup, hsteady, hsuits, hedit, hsuits', hedit'⟩ := f.exists_edits
    obtain ⟨old, new, h⟩ := edits_confined hread hnodup hsteady
      (.step .start ha (recorded_inNamespace "N" a) hsuits hedit) hb (recorded_inNamespace "N" b) hsuits' hedit'
    exact ⟨cases, a, b, _, out, old, new, hread, ha, hb, hedit, hedit', h⟩
  exact ⟨hboth .pest, hboth .phpunit⟩

/-! ## §4 Edits that reach other tests -/

namespace Framework

/-- The titles of tests and groups are quoted texts, or no class with a test has a name with a backslash. -/
def Plain : Framework → Text → Prop
  | pest => FluentChain.AllTitled
  | phpunit => AttributeList.Steady

instance (source : Text) : (f : Framework) → Decidable (f.Plain source)
  | pest => inferInstanceAs (Decidable (FluentChain.AllTitled source))
  | phpunit => inferInstanceAs (Decidable (AttributeList.Steady source))

/-- What is written for a target can be read. -/
def Spells (imports : Imports) (w : Target) : Framework → Prop
  | pest => FluentChain.Spelled imports w
  | phpunit => AttributeList.Spelled imports w

instance (imports : Imports) (w : Target) : (f : Framework) → Decidable (f.Spells imports w)
  | pest => inferInstanceAs (Decidable (FluentChain.Spelled imports w))
  | phpunit => inferInstanceAs (Decidable (AttributeList.Spelled imports w))

/-- An edit of the first test of a source, and the text that it leaves. -/
structure Sample where
  source : Text
  request : LinkRequest
  out : Text

/-- An edit of the first test of a source leaves a text that does not hold its tests, or in which another of
them declares other links, although no two of them have one identifier and all that is written can be read. -/
structure Strays (f : Framework) (e : Sample) : Prop where
  plain : f.Plain e.source
  spelled : ∀ l, tokenize e.source = .ok l → ∀ targets, parseTargets e.request.names = .ok targets →
    ∀ w ∈ targets, f.Spells (Imports.ofTokens l) w
  strays : ∃ cases c, f.readTests e.source = .ok cases ∧ (cases.map TestCase.identifier).Nodup ∧
    cases[0]? = some c ∧ e.request.carryOut f e.source c = .ok e.out ∧
    ∀ new, f.readTests e.out = .ok new → ¬ Confined 0 cases new

/-- True if some test goes by another name or identifier, or one behind the first declares other links. -/
def differsBehindFirst (old new : List TestCase) : Bool :=
  old.map TestCase.label ≠ new.map TestCase.label ||
    (old.map TestCase.links).tail ≠ (new.map TestCase.links).tail

theorem not_confined_of_differs {old new : List TestCase} (h : differsBehindFirst old new = true) :
    ¬ Confined 0 old new := by
  intro hconfined
  have hlinks : (old.map TestCase.links).tail = (new.map TestCase.links).tail :=
    List.ext_getElem? fun j => by
      have := hconfined.others (j + 1) (by omega)
      rw [List.getElem?_tail, List.getElem?_tail, List.getElem?_map, List.getElem?_map, this]
  simp [differsBehindFirst, hconfined.labels, hlinks] at h

/-- True if an edit strays. -/
def strays (f : Framework) (e : Sample) : Bool :=
  f.Plain e.source &&
    (∀ l, tokenize e.source = .ok l → ∀ targets, parseTargets e.request.names = .ok targets →
      ∀ w ∈ targets, f.Spells (Imports.ofTokens l) w) &&
    (f.readTests e.source).toOption.any fun cases => (cases[0]?).any fun c =>
      (cases.map TestCase.identifier).Nodup && (e.request.carryOut f e.source c).toOption == some e.out &&
        (f.readTests e.out).toOption.all (differsBehindFirst cases)

theorem strays_of_all {es : List Sample} (h : es.all f.strays = true) : ∀ e ∈ es, f.Strays e := by
  intro e he
  have h := List.all_eq_true.mp h e he
  simp only [strays, Bool.and_eq_true, decide_eq_true_eq] at h
  obtain ⟨⟨hplain, hspelled⟩, h⟩ := h
  obtain ⟨cases, hcases, h⟩ := (Option.any_eq_true _ _).mp h
  obtain ⟨c, hc, h⟩ := (Option.any_eq_true _ _).mp h
  simp only [Bool.and_eq_true, decide_eq_true_eq, beq_iff_eq] at h
  obtain ⟨⟨hnodup, hout⟩, hdiffers⟩ := h
  refine ⟨hplain, hspelled, cases, c, eq_ok_of_toOption hcases, hnodup, hc, eq_ok_of_toOption hout,
    fun new hnew => ?_⟩
  rw [hnew] at hdiffers
  exact not_confined_of_differs hdiffers

end Framework

/-- Edits of chains that stray. -/
def FluentChain.straying : List Framework.Sample :=
  -- a slash and what follows the item that leaves make a comment
  [⟨"test('a')->links(/,'A'/*x*/);", .remove ["A"], "test('a')->links(//*x*/);"⟩,
  -- a short tag and the name after the item that leaves make a long tag, behind which there is a test
  ⟨"<?php\ntest('a')->links(?><?'A', phptest('b'));\n", .remove ["A"],
    "<?php\ntest('a')->links(?><?phptest('b'));\n"⟩,
  -- the import goes on to the semicolon, and its last name becomes another one
  ⟨"namespace N;\nuse X\ntest('a')->links(B::class)->note(1);\ntest('b')->links(B::class);\n",
    .remove ["B"], "namespace N;\nuse X\ntest('a')->note(1);\ntest('b')->links(B::class);\n"⟩,
  -- a tag in an argument makes inline markup of what was code
  ⟨"test('a');", .inject ["App\\X::<?"] false, "test('a')->links('App\\X::<?');"⟩,
  -- a class called `Use` is taken for an import, which goes on to the semicolon
  ⟨"namespace N;\nuse App\\Use;\ntest('a')->note(Foo::class);\ntest('b')->links(Foo::class);\n",
    .inject ["App\\Use::m"] false,
    "namespace N;\nuse App\\Use;\ntest('a')->links(Use::class.'::m')->note(Foo::class);\n" ++
      "test('b')->links(Foo::class);\n"⟩]

/-- Two tests behind a method, below a constant called `USE`, which is taken for an import that ends in the
method. -/
def trailingSource (group : Text) : Text :=
  "namespace N;\nuse App\\Use;\n#[X(F::USE)]\nclass T \x7b\n    function f() \x7b return 1; \x7d\n" ++ group ++
    "    function test_a() \x7b return B; \x7d\n    #[Links(B::class)]\n    function test_b() \x7b\x7d\n\x7d\n"

/-- Edits of attribute lists that stray. -/
def AttributeList.straying : List Framework.Sample :=
  -- a tag in a group makes inline markup of what was code
  [⟨"class T \x7b function test_a() \x7b\x7d \x7d\n", .inject ["X::<?"] false,
    "class T \x7b #[Links(X::class, '<?')] function test_a() \x7b\x7d \x7d\n"⟩,
  -- the constant `USE` is taken for an import that goes on to the next semicolon, and its last name becomes
  -- another one where a group is put in
  ⟨pairedSource [] "    #[Links(B::class)]\n", .inject ["N\\B"] false,
    pairedSource "    #[Links(B::class)]\n" "    #[Links(B::class)]\n"⟩,
  -- and where it is taken out
  ⟨pairedSource "    #[Links(B::class)]\n" "    #[Links(B::class)]\n", .remove ["B"],
    pairedSource [] "    #[Links(B::class)]\n"⟩,
  -- a class called `Use` is taken for an import where the brace of the class has been passed over
  ⟨trailingSource [], .inject ["App\\Use::m"] false, trailingSource "    #[Links(Use::class, 'm')]\n"⟩,
  -- the comment that makes a test of the method comes to stand behind another one
  ⟨"class T \x7b\n    /** @test */\n    #[Links(A::class)]\n    /** x */\n    function foo() \x7b\x7d\n\x7d\n",
    .remove ["A"], "class T \x7b\n    /** @test */\n    /** x */\n    function foo() \x7b\x7d\n\x7d\n"⟩,
  -- what stands before a group and what stands behind it make one word
  ⟨"class T \x7b foo #[Links(A::class)]function test_a() \x7b\x7d \x7d\n", .remove ["A"],
    "class T \x7b foofunction test_a() \x7b\x7d \x7d\n"⟩,
  -- a bracket goes with the attribute before it, and the group is closed too early
  ⟨"class T \x7b #[Links(B::class), [/ Links(C::class)]]\nfunction test_a() \x7b\x7d \x7d\n", .remove ["B"],
    "class T \x7b #[Links(C::class)]]\nfunction test_a() \x7b\x7d \x7d\n"⟩]

/-- What is required of the source and of the edits is needed. -/
theorem edits_stray : (∀ e ∈ FluentChain.straying, Framework.pest.Strays e) ∧
    ∀ e ∈ AttributeList.straying, Framework.phpunit.Strays e :=
  ⟨Framework.strays_of_all (by decide +kernel), Framework.strays_of_all (by decide +kernel)⟩

end Crosslink
