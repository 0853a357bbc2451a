import Crosslink.Proofs.Checked.Edits

/-!
# The editors with every access checked

The edits of both styles of tests, and of production methods, with every access checked that they
make: those of the readers they start from, the look-up of the test that is found again, the cutting of
the gap before a call, and those of the changes and of their carrying out.

A recorded test and the names of targets may be anything. The edits always have a result, which is that
of the editor they check: a text or an error.

* §1 Edits in steps.
* §2 Chained calls.
* §3 Attribute lists.
* §4 Production methods.
* §5 All readers and editors.

## Main statements

* `checked_eq`: whatever is read and edited, no access is refused.
-/

namespace Crosslink

/-! ## 1. Edits in steps -/

/-- Go on with what a step that may fail gives. -/
def attempt {ε α β : Type} (step : Option (Except ε α)) (next : α → Option (Except ε β)) :
    Option (Except ε β) := do
  match ← step with
  | .error e => some (.error e)
  | .ok a => next a

theorem attempt_eq {ε α β : Type} {step : Option (Except ε α)} {x : Except ε α}
    {next : α → Option (Except ε β)} {f : α → Except ε β} (hstep : step = some x)
    (hnext : ∀ a, x = .ok a → next a = some (f a)) : attempt step next = some (x >>= f) := by
  subst hstep
  cases x with
  | error e => rfl
  | ok a => exact hnext a rfl

/-- Carry out the splices of an edit. -/
def Checked.applyEdit (source : Text) (splices : List Splice) : Option (Except EditError Text) :=
  (Splice.Checked.apply source splices).map fun out => out.mapError .conflict

theorem Checked.applyEdit_eq (source : Text) {splices : List Splice}
    (h : ∀ s ∈ splices, s.span.start ≤ s.span.stop) :
    Checked.applyEdit source splices = some (Crosslink.applyEdit source splices) := by
  rw [applyEdit, Splice.Checked.apply_eq source h]
  rfl

/-! ## 2. Chained calls -/

namespace FluentChain.Checked

open Source Source.TokenSequence

/-- Find a recorded test in the current text. -/
def locate (source : Text) (recorded : TestCase) : Option (Except EditError (File × Test)) :=
  attempt ((read source).map fun file => file.mapError .malformed) fun file =>
    match TestCase.findAgain? (file.tests.map Test.case) recorded with
    | none => some (.error (.testNotFound recorded.name))
    | some i => do
      let t ← file.tests[i]?
      some (.ok (file, t))

/-- The blanks to put before a new call, cut out of the source. -/
def callGap (source : Text) (t : Test) : Option Text :=
  match t.linkCalls.getLast? <|> t.chain.head? with
  | some c => (c.gap.slice? source).map fun gap => if gap.all isBlank then gap else []
  | none => some []

/-- What taking the upgraded links out of a call comes to. -/
def upgradeCall (targets : List Target) (c : Call) : Option (List Splice) :=
  if allMarked targets c then some [.replace c.nameSpan coveringCall]
  else if (marks targets c).any id then
    Edit.Checked.dropItems (c.arguments.map Argument.span) (marks targets c)
  else some []

/-- What taking links out of a call comes to. -/
def removeFromCall (targets : List Target) (c : Call) : Option (List Splice) :=
  if allMarked targets c then (Span.between? c.gap.start c.stop).map fun span => [.delete span]
  else if (marks targets c).any id then
    Edit.Checked.dropItems (c.arguments.map Argument.span) (marks targets c)
  else some []

/-- The changes that add links to a test, whose calls are laid out with a gap. -/
def injectSplices (gap : Text) (file : File) (t : Test) (targets : List Target) (covers : Bool) :
    Option (List Splice) := do
  let wanted := targets.eraseDups
  let upgraded := upgraded t wanted covers
  let edits ← gather (upgradeCall upgraded) t.linkCalls
  let calls := (appended t wanted upgraded).flatMap fun target =>
    gap ++ writeCall file.imports target covers
  some (edits ++ (if calls = [] then [] else [.insert t.case.declarationPoint calls]))

/-- Add links to a test. -/
def inject (source : Text) (recorded : TestCase) (targets : List Text) (covers : Bool) :
    Option (Except EditError Text) :=
  attempt (locate source recorded) fun (file, t) => do
    let gap ← callGap source t
    attempt (some (parseTargets targets)) fun targets => do
      let splices ← injectSplices gap file t targets covers
      Crosslink.Checked.applyEdit source splices

/-- Remove links from a test. -/
def remove (source : Text) (recorded : TestCase) (targets : List Text) :
    Option (Except EditError Text) :=
  attempt (locate source recorded) fun (_, t) =>
    attempt (some (parseTargets targets)) fun targets => do
      let splices ← gather (removeFromCall targets) t.linkCalls
      Crosslink.Checked.applyEdit source splices

variable {source : Text} {file : File} {t : Test} {c : Call} {targets : List Target}

/-- The calls chained to a test are calls among the tokens of the source. -/
theorem exists_callOf (hread : File.read source = .ok file) (ht : t ∈ file.tests)
    (hc : c ∈ t.chain) : ∃ l i close, tokenize source = .ok l ∧ 0 < i ∧ IsCall l i close ∧
      c = callOf l source file.imports i close := by
  obtain ⟨n, hget⟩ := List.getElem?_of_mem ht
  obtain ⟨l, o, close, keyword, hsited⟩ := exists_sited hread hget
  have hn := nested_of_tokenize hsited.read
  obtain ⟨groups, tok, -, rfl⟩ := hsited.test
  obtain ⟨ds, hchained, hchain⟩ := exists_chained hn (close + 1)
  rw [FluentChain.testAt, hchain source file.imports l.tokens.size (by omega)] at hc
  obtain ⟨d, hd, rfl⟩ := List.mem_map.mp hc
  obtain ⟨hcall, hle⟩ := hchained.mem hd hn
  exact ⟨l, d.1, d.2, hsited.read, by omega, hcall, rfl⟩

/-- The gap before a call lies between two tokens. -/
theorem gap_fits (hread : File.read source = .ok file) (ht : t ∈ file.tests) (hc : c ∈ t.chain) :
    c.gap.Fits source := by
  obtain ⟨l, i, close, hl, hi, hcall, rfl⟩ := exists_callOf hread ht hc
  have hn := nested_of_tokenize hl
  have hlt := hcall.lt hn
  have hsize := hn.lt_size hcall.partner
  have hbefore := Array.getElem?_eq_getElem (show i - 1 < l.tokens.size by omega)
  have harrow := Array.getElem?_eq_getElem (show i < l.tokens.size by omega)
  have hgap : (callOf l source file.imports i close).gap =
      ⟨l.tokens[i - 1].span.stop, l.tokens[i].span.start⟩ := by
    simp only [callOf, if_neg (Nat.ne_of_gt hi), stopAt_eq hbefore, harrow]
    rfl
  rw [hgap]
  exact ⟨stop_le_start hl hbefore harrow (by omega), (token_fits hl hbefore).stop,
    (token_fits hl harrow).start⟩

theorem length_marks (hread : File.read source = .ok file) (ht : t ∈ file.tests)
    (hc : c ∈ t.chain) (targets : List Target) :
    (marks targets c).length = (c.arguments.map Argument.span).length := by
  obtain ⟨l, i, close, -, -, -, rfl⟩ := exists_callOf hread ht hc
  simp [marks, callOf]

/-- A test that is found again stands at an index of the list it is looked for in. -/
theorem lt_of_findAgain? {candidates : List TestCase} {recorded : TestCase} {i : Nat}
    (h : TestCase.findAgain? candidates recorded = some i) : i < candidates.length := by
  have hlt : ∀ {p : TestCase → Bool}, candidates.findIdx? p = some i → i < candidates.length :=
    fun hp => (List.findIdx?_eq_some_iff_findIdx_eq.mp hp).1
  simp only [TestCase.findAgain?, Option.orElse_eq_orElse, Option.orElse_eq_or,
    Option.or_eq_some_iff] at h
  rcases h with h | ⟨-, h | ⟨-, h⟩⟩ <;> exact hlt h

theorem locate_eq (source : Text) (recorded : TestCase) :
    locate source recorded = some (FluentChain.locate source recorded) := by
  refine attempt_eq (by rw [read_eq]; rfl) fun file _ => ?_
  cases hfind : TestCase.findAgain? (file.tests.map Test.case) recorded with
  | none => rfl
  | some i =>
    have hlt := lt_of_findAgain? hfind
    rw [List.length_map] at hlt
    simp only [Option.bind_some, List.getElem?_eq_getElem hlt, Option.bind_eq_bind]
    rfl

theorem callGap_eq (hread : File.read source = .ok file) (ht : t ∈ file.tests) :
    callGap source t = some (FluentChain.callGap source t) := by
  unfold callGap FluentChain.callGap
  cases hanchor : t.linkCalls.getLast? <|> t.chain.head? with
  | none => rfl
  | some c =>
    have hc : c ∈ t.chain := by
      simp only [Option.orElse_eq_orElse, Option.orElse_eq_or, Option.or_eq_some_iff] at hanchor
      rcases hanchor with h | ⟨-, h⟩
      · exact (List.mem_filter.mp (List.mem_of_getLast? h)).1
      · exact List.mem_of_head? h
    simp only [(gap_fits hread ht hc).slice?_eq, Option.map_some]

/-- The arguments of a call that declares links are taken out with every access in range. -/
theorem dropItems_eq (hread : File.read source = .ok file) (ht : t ∈ file.tests)
    (hc : c ∈ t.linkCalls) (targets : List Target) :
    Edit.Checked.dropItems (c.arguments.map Argument.span) (marks targets c) =
      some (Edit.dropItems (c.arguments.map Argument.span) (marks targets c)) := by
  have hplaced := (linksPlaced hread ht).placed c hc
  exact Edit.Checked.dropItems_eq (length_marks hread ht (List.mem_filter.mp hc).1 targets)
    (Edit.Checked.inOrder_of_lt (fun s hs => (hplaced.items s hs).2.1) hplaced.order)

theorem upgradeCall_eq (hread : File.read source = .ok file) (ht : t ∈ file.tests)
    (hc : c ∈ t.linkCalls) (targets : List Target) :
    upgradeCall targets c = some (FluentChain.upgradeCall targets c) := by
  unfold upgradeCall FluentChain.upgradeCall
  rw [dropItems_eq hread ht hc]
  split
  · rfl
  · split <;> rfl

theorem removeFromCall_eq (hread : File.read source = .ok file) (ht : t ∈ file.tests)
    (hc : c ∈ t.linkCalls) (targets : List Target) :
    removeFromCall targets c = some (FluentChain.removeFromCall targets c) := by
  have hlt := ((linksPlaced hread ht).placed c hc).lt
  unfold removeFromCall FluentChain.removeFromCall
  rw [dropItems_eq hread ht hc, Span.between?_of_le (Nat.le_of_lt hlt)]
  split
  · rfl
  · split <;> rfl

theorem injectSplices_eq (hread : File.read source = .ok file) (ht : t ∈ file.tests)
    (targets : List Target) (covers : Bool) :
    injectSplices (FluentChain.callGap source t) file t targets covers =
      some (FluentChain.injectSplices source file t targets covers) := by
  unfold injectSplices FluentChain.injectSplices
  simp only [gather_eq fun c hc => upgradeCall_eq hread ht hc _, Option.bind_eq_bind,
    Option.bind_some]

theorem inject_eq (source : Text) (recorded : TestCase) (targets : List Text) (covers : Bool) :
    inject source recorded targets covers =
      some (FluentChain.inject source recorded targets covers) := by
  refine attempt_eq (locate_eq source recorded) fun found hfound => ?_
  obtain ⟨file, t⟩ := found
  obtain ⟨hread, ht⟩ := of_locate hfound
  simp only [callGap_eq hread ht, Option.bind_eq_bind, Option.bind_some]
  refine attempt_eq rfl fun targets _ => ?_
  rw [injectSplices_eq hread ht, Option.bind_some]
  exact Crosslink.Checked.applyEdit_eq source fun s hs =>
    ((apart_injectSplices hread ht targets covers).fits s hs).le

theorem remove_eq (source : Text) (recorded : TestCase) (targets : List Text) :
    remove source recorded targets = some (FluentChain.remove source recorded targets) := by
  refine attempt_eq (locate_eq source recorded) fun found hfound => ?_
  obtain ⟨file, t⟩ := found
  obtain ⟨hread, ht⟩ := of_locate hfound
  refine attempt_eq rfl fun targets _ => ?_
  rw [gather_eq fun c hc => removeFromCall_eq hread ht hc targets, Option.bind_eq_bind,
    Option.bind_some]
  exact Crosslink.Checked.applyEdit_eq source fun s hs =>
    ((apart_removeSplices hread ht targets).fits s hs).le

end FluentChain.Checked

/-! ## 3. Attribute lists -/

namespace Source

variable {source : Text} {l : TokenSequence} {m : Method}

theorem groups_fit (hl : tokenize source = .ok l) (hm : MethodAt l source m)
    {groups : List AttributeGroup} (hgroups : ∀ g ∈ groups, g ∈ m.attributes) :
    ∀ s ∈ groups.map AttributeGroup.span, s.Fits source := by
  intro s hs
  obtain ⟨g, hg, rfl⟩ := List.mem_map.mp hs
  obtain ⟨o, c, hat⟩ := hm.groups g (hgroups g hg)
  exact hat.covers.fits hl

theorem isBoundary_headStart (hl : tokenize source = .ok l) (hm : MethodAt l source m) :
    Text.isBoundary m.headStart source = true := by
  obtain ⟨k, u, hu, hstart⟩ := hm.headStart
  exact hstart ▸ (token_fits hl hu).start

end Source

namespace AttributeList.Checked

open Source Source.TokenSequence

/-- Find a recorded test in the current text. -/
def locate (source : Text) (recorded : TestCase) : Option (Except EditError (File × Test)) :=
  attempt ((read source).map fun file => file.mapError .malformed) fun file =>
    match TestCase.findAgain? (file.tests.map Test.case) recorded with
    | none => some (.error (.testNotFound recorded.name))
    | some i => do
      let t ← file.tests[i]?
      some (.ok (file, t))

/-- The change that gives an attribute coverage. The short name is what its name ends in. -/
def upgrade (a : Attribute) : Option Splice := do
  let width := Text.width a.shortName
  let start ← if width ≤ a.nameSpan.stop then some (a.nameSpan.stop - width) else none
  let span ← Span.between? start a.nameSpan.stop
  some (.replace span linksAndCoversName)

/-- What adding one link comes to. -/
def injectOne (source : Text) (imports : Imports) (m : Method) (covers : Bool) (target : Target) :
    Option (List Splice) :=
  match (linkAttributes m).filter fun a => a.target imports = some target with
  | [] =>
    (Edit.Checked.addLine source (anchors m) m.headStart (writeGroup imports target covers)).map ([·])
  | first :: rest =>
    if covers && !((first :: rest).any (·.isNamed linksAndCoversName)) then (upgrade first).map ([·])
    else some []

/-- Add links to a test. The changes are made for every name that names a target, also for those
before one that does not. -/
def inject (source : Text) (recorded : TestCase) (names : List Text) (covers : Bool) :
    Option (Except EditError Text) :=
  attempt (locate source recorded) fun (file, t) => do
    let named := names.filterMap fun name => (Target.parse name).toOption
    let splices ← gather (injectOne source file.imports t.method covers) named.eraseDups
    attempt (some (parseTargets names)) fun _ => Crosslink.Checked.applyEdit source splices

/-- What taking links out of a group comes to. -/
def removeFromGroup (source : Text) (imports : Imports) (targets : List Target)
    (g : AttributeGroup) : Option (List Splice) :=
  let marks := marks imports targets g
  if marks.any id then
    if marks.all id then (Edit.Checked.takeOut source g.span).map ([·])
    else Edit.Checked.dropItems (g.attributes.map Attribute.span) marks
  else some []

/-- Remove links from a test. -/
def remove (source : Text) (recorded : TestCase) (names : List Text) :
    Option (Except EditError Text) :=
  attempt (locate source recorded) fun (file, t) =>
    attempt (some (parseTargets names)) fun targets => do
      let splices ← gather (removeFromGroup source file.imports targets) (groupsWithLinks t.method)
      Crosslink.Checked.applyEdit source splices

variable {source : Text} {l : TokenSequence} {imports : Imports} {m : Method} {a : Attribute}
  {g : AttributeGroup} {o c : Nat}

theorem locate_eq (source : Text) (recorded : TestCase) :
    locate source recorded = some (AttributeList.locate source recorded) := by
  refine attempt_eq (by rw [read_eq]; rfl) fun file _ => ?_
  cases hfind : TestCase.findAgain? (file.tests.map Test.case) recorded with
  | none => rfl
  | some i =>
    have hlt := FluentChain.Checked.lt_of_findAgain? hfind
    rw [List.length_map] at hlt
    simp only [Option.bind_some, List.getElem?_eq_getElem hlt, Option.bind_eq_bind]
    rfl

/-- The short name of an attribute is no longer than what stands before the end of its name. -/
theorem width_shortName_le (hl : tokenize source = .ok l) (hg : GroupAt l source g o c)
    (ha : a ∈ g.attributes) : Text.width a.shortName ≤ a.nameSpan.stop := by
  rw [hg.attributes] at ha
  obtain ⟨k, t, -, -, ht, rfl⟩ := exists_of_mem_attributesFrom ha
  obtain ⟨hname, hspan⟩ := attributeAt_name l source k t
  obtain ⟨lead, hlead, -⟩ := exists_shortName (AttributeGroup.attributeAt l source k t).1
  obtain ⟨x, y, -, -, hstop⟩ := exists_token_parts hl ht
  have hwidth := congrArg Text.width (hname.symm.trans hlead)
  rw [Text.width_append] at hwidth
  rw [hspan, hstop]
  omega

theorem upgrade_eq (hl : tokenize source = .ok l) (hg : GroupAt l source g o c)
    (ha : a ∈ g.attributes) : upgrade a = some (AttributeList.upgrade a) := by
  have hle := width_shortName_le hl hg ha
  simp only [upgrade, if_pos hle, Span.between?_of_le (Nat.sub_le _ _), Option.bind_eq_bind,
    Option.bind_some]
  rfl

theorem anchors_fit (hl : tokenize source = .ok l) (hm : MethodAt l source m) :
    ∀ s ∈ anchors m, s.Fits source := by
  refine groups_fit hl hm fun g hg => ?_
  split at hg
  · exact hg
  · exact (List.mem_filter.mp hg).1

theorem injectOne_eq (hl : tokenize source = .ok l) (hm : MethodAt l source m) (covers : Bool)
    (target : Target) : injectOne source imports m covers target =
      some (AttributeList.injectOne source imports m covers target) := by
  unfold injectOne AttributeList.injectOne
  cases hfilter : (linkAttributes m).filter fun a => a.target imports = some target with
  | nil =>
    simp only [Edit.Checked.addLine_eq (anchors_fit hl hm) (isBoundary_headStart hl hm), Option.map_some]
  | cons first rest =>
    have hfirst : first ∈ linkAttributes m :=
      (List.mem_filter.mp (hfilter ▸ List.mem_cons_self)).1
    obtain ⟨g, -, hg, ha⟩ := mem_linkAttributes hfirst
    obtain ⟨o, c, hat⟩ := hm.groups g hg
    simp only [upgrade_eq hl hat ha, Option.map_some]
    split <;> rfl

/-- When all names can be read, the targets are those read from each. -/
theorem filterMap_of_parseTargets {names : List Text} {targets : List Target}
    (h : parseTargets names = .ok targets) :
    names.filterMap (fun name => (Target.parse name).toOption) = targets := by
  have hmap : names.mapM Target.parse = .ok targets := by
    unfold parseTargets at h
    cases hnames : names.mapM Target.parse with
    | error e => rw [hnames] at h; cases h
    | ok parsed => rw [hnames] at h; exact congrArg Except.ok (Except.ok.inj h)
  clear h
  induction names generalizing targets with
  | nil => exact Except.ok.inj hmap
  | cons name names ih =>
    rw [List.mapM_cons] at hmap
    cases hname : Target.parse name with
    | error e => rw [hname] at hmap; cases hmap
    | ok target =>
      cases hnames : names.mapM Target.parse with
      | error e => rw [hname, hnames] at hmap; cases hmap
      | ok rest =>
        rw [hname, hnames] at hmap
        rw [List.filterMap_cons, hname, ← Except.ok.inj hmap]
        exact congrArg (target :: ·) (ih hnames)

theorem inject_eq (source : Text) (recorded : TestCase) (names : List Text) (covers : Bool) :
    inject source recorded names covers =
      some (AttributeList.inject source recorded names covers) := by
  refine attempt_eq (locate_eq source recorded) fun found hfound => ?_
  obtain ⟨file, t⟩ := found
  obtain ⟨l, hl, hm⟩ := of_locate hfound
  simp only [gather_eq fun target _ => injectOne_eq hl hm covers target, Option.bind_eq_bind,
    Option.bind_some]
  refine attempt_eq rfl fun targets htargets => ?_
  rw [filterMap_of_parseTargets htargets]
  exact Crosslink.Checked.applyEdit_eq source fun s hs =>
    ((apart_injectSplices hl hm targets covers).fits s hs).le

theorem removeFromGroup_eq (hl : tokenize source = .ok l) (hg : GroupAt l source g o c)
    (targets : List Target) : removeFromGroup source imports targets g =
      some (AttributeList.removeFromGroup source imports targets g) := by
  have hitems : Edit.Checked.dropItems (g.attributes.map Attribute.span) (marks imports targets g) =
      some (Edit.dropItems (g.attributes.map Attribute.span) (marks imports targets g)) := by
    refine Edit.Checked.dropItems_eq (by simp [marks]) (Edit.Checked.inOrder_of_lt (fun s hs => ?_)
      (List.pairwise_map.mpr (attributes_order hl hg)))
    obtain ⟨a, ha, rfl⟩ := List.mem_map.mp hs
    exact (attributePlaced hl hg ha).lt
  unfold removeFromGroup AttributeList.removeFromGroup
  dsimp only
  rw [hitems, Edit.Checked.takeOut_eq (hg.covers.fits hl)]
  split
  · split <;> rfl
  · rfl

theorem remove_eq (source : Text) (recorded : TestCase) (names : List Text) :
    remove source recorded names = some (AttributeList.remove source recorded names) := by
  refine attempt_eq (locate_eq source recorded) fun found hfound => ?_
  obtain ⟨file, t⟩ := found
  obtain ⟨l, hl, hm⟩ := of_locate hfound
  have hgroups : ∀ g ∈ groupsWithLinks t.method, ∃ o c, GroupAt l source g o c :=
    fun g hg => hm.groups g (List.mem_filter.mp hg).1
  refine attempt_eq rfl fun targets _ => ?_
  have hsplices : ∀ g ∈ groupsWithLinks t.method, removeFromGroup source file.imports targets g =
      some (AttributeList.removeFromGroup source file.imports targets g) := by
    intro g hg
    obtain ⟨o, c, hat⟩ := hgroups g hg
    exact removeFromGroup_eq hl hat targets
  rw [gather_eq hsplices, Option.bind_eq_bind, Option.bind_some]
  refine Crosslink.Checked.applyEdit_eq source fun s hs => ?_
  obtain ⟨g, hg, hs⟩ := List.mem_flatMap.mp hs
  obtain ⟨o, c, hat⟩ := hgroups g hg
  exact ((removeFromGroup_holds hl hat).1 s hs).1.le

end AttributeList.Checked

/-! ## 4. Production methods -/

namespace Production.Checked

open Source Source.TokenSequence

/-- Add back-references to a method. -/
def inject (source : Text) (target : Target) (tests : List BackReference) :
    Option (Except EditError Text) :=
  match target.method with
  | none => some (.error (.methodNotFound target.canonical))
  | some method =>
    attempt ((Source.Checked.tokenize source).map fun l => l.mapError .malformed) fun l => do
      let imports ← Source.Checked.importsOf l
      let classes ← Source.Checked.classes l source
      match findMethod imports classes target.className method with
      | none => some (.error (.methodNotFound target.canonical))
      | some m =>
        let groups := m.attributes.filter (·.has testedByName)
        let anchors := (if groups.isEmpty then m.attributes else groups).map AttributeGroup.span
        let splices ← gather (fun r =>
          (Edit.Checked.addLine source anchors m.headStart (render r)).map ([·]))
          (missing (testsNamed imports groups) tests)
        Crosslink.Checked.applyEdit source splices

theorem inject_eq (source : Text) (target : Target) (tests : List BackReference) :
    inject source target tests = some (Production.inject source target tests) := by
  unfold inject Production.inject
  cases target.method with
  | none => rfl
  | some method =>
    refine attempt_eq (by rw [Source.Checked.tokenize_eq]; rfl) fun l hl => ?_
    have hl : tokenize source = .ok l := by
      cases h : tokenize source with
      | error d => rw [h] at hl; cases hl
      | ok l' => rw [h] at hl; exact congrArg Except.ok (Except.ok.inj hl)
    simp only [Source.Checked.importsOf_eq hl, Source.Checked.classes_eq hl, Option.bind_eq_bind,
      Option.bind_some]
    cases hfind : findMethod (Imports.ofTokens l) (l.classes source) target.className method with
    | none => rfl
    | some m =>
      obtain ⟨d, hd, hm⟩ := mem_of_findMethod hfind
      have hm := methodAt_of_mem_classes hl hd hm
      dsimp only
      have hgroups : ∀ g ∈ (if (m.attributes.filter (·.has testedByName)).isEmpty then m.attributes
          else m.attributes.filter (·.has testedByName)), g ∈ m.attributes := by
        intro g hg
        split at hg
        · exact hg
        · exact (List.mem_filter.mp hg).1
      have hlines := fun r => Edit.Checked.addLine_eq (groups_fit hl hm hgroups)
        (isBoundary_headStart hl hm) (render r)
      simp only [hlines, Option.map_some, gather_eq fun _ _ => rfl, Option.bind_some]
      rw [← List.map_eq_flatMap]
      exact Crosslink.Checked.applyEdit_eq source fun s hs =>
        ((apart_addLines hl hm hgroups _).fits s hs).le

end Production.Checked

/-! ## 5. All readers and editors -/

namespace Source.Checked

/-- The imports of a source text. -/
def readImports (source : Text) : Option (Except SyntaxError Imports) :=
  readWith (fun _ imports => some imports) source

/-- The attribute group that the token at an index of a source text opens. -/
def readGroup (source : Text) (i : Nat) : Option (Except SyntaxError (Option AttributeGroup)) :=
  readWith (fun l _ => groupAt l source i) source

theorem readImports_eq (source : Text) :
    readImports source = some ((Source.tokenize source).map Imports.ofTokens) :=
  readWith_eq (g := fun _ imports => imports) fun _ _ => rfl

theorem readGroup_eq (source : Text) (i : Nat) :
    readGroup source i = some ((Source.tokenize source).map fun l => AttributeGroup.parse l source i) :=
  readWith_eq (g := fun l _ => AttributeGroup.parse l source i) fun _ hl => groupAt_eq hl i

end Source.Checked

/-- Whatever text is read and edited, whichever test is recorded and whatever is asked for, every
index is in range, every span is the right way round, and every part that is cut out begins and ends
between two characters. So each reader gives a value or the error of the text, and each editor a text
or the error of the edit. -/
theorem checked_eq (source : Text) :
    FluentChain.Checked.readTests source = some (FluentChain.readTests source) ∧
    AttributeList.Checked.readTests source = some (AttributeList.readTests source) ∧
    Production.Checked.readClasses source = some (Production.readClasses source) ∧
    Source.Checked.readImports source =
      some ((Source.tokenize source).map Source.Imports.ofTokens) ∧
    (∀ i, Source.Checked.readGroup source i =
      some ((Source.tokenize source).map fun l => Source.AttributeGroup.parse l source i)) ∧
    (∀ recorded names covers, FluentChain.Checked.inject source recorded names covers =
      some (FluentChain.inject source recorded names covers)) ∧
    (∀ recorded names, FluentChain.Checked.remove source recorded names =
      some (FluentChain.remove source recorded names)) ∧
    (∀ recorded names covers, AttributeList.Checked.inject source recorded names covers =
      some (AttributeList.inject source recorded names covers)) ∧
    (∀ recorded names, AttributeList.Checked.remove source recorded names =
      some (AttributeList.remove source recorded names)) ∧
    ∀ target tests, Production.Checked.inject source target tests =
      some (Production.inject source target tests) :=
  ⟨FluentChain.Checked.readTests_eq source, AttributeList.Checked.readTests_eq source,
    Production.Checked.readClasses_eq source, Source.Checked.readImports_eq source,
    Source.Checked.readGroup_eq source, FluentChain.Checked.inject_eq source,
    FluentChain.Checked.remove_eq source, AttributeList.Checked.inject_eq source,
    AttributeList.Checked.remove_eq source, Production.Checked.inject_eq source⟩

end Crosslink
