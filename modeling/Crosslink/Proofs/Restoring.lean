import Crosslink.Proofs.Apart
import Crosslink.Proofs.Removing

/-!
# Links put into a chain and taken out again

Links that a test does not declare are put into its chain as new calls after the last that declares
some. Each of these calls declares one of them and nothing else, so that they all go as a whole when
the links are removed again, with the blanks before them, and the source is what it was.

* §1 `apply_removals`, a row of calls taken out.
* §2 `removals_of_written`, the splices that take new calls out.
* §3 `exists_grown_inject`, what injection makes of a source.
* §4 `remove_inject`, and `remove_inject_inexact`.
-/

namespace Crosslink.FluentChain

open Source Source.TokenSequence Splice

variable {source : Text} {l l' : TokenSequence} {imports : Imports} {t : Test} {targets : List Target}
  {covers : Bool} {A N Q : List Piece} {cs ws : List ChainCall}

/-! ## 1. Rows of calls -/

/-- The splice that takes a call out of its chain, with what stands before its arrow. -/
def removal (c : Call) : Splice := .delete ⟨c.gap.start, c.stop⟩

theorem removals_eq_tiles (imports : Imports) (offset : Nat) (ws : List ChainCall) :
    (readChain imports offset ws).map removal =
      tiles offset (ws.map fun w => w.pieces.flatMap Piece.text) := by
  induction ws generalizing offset with
  | nil => rfl
  | cons w ws ih =>
    rw [readChain, List.map_cons, List.map_cons, tiles, ih]
    rfl

/-- What is left of a source when a row of calls is taken out of it. -/
theorem apply_removals (imports : Imports) (A Q : List Piece) (ws : List ChainCall) :
    applyEdit ((A ++ (ws.flatMap ChainCall.pieces ++ Q)).flatMap Piece.text)
      ((readChain imports (Reading.extent A) ws).map removal) =
        .ok ((A ++ Q).flatMap Piece.text) := by
  have hrow := applyEdit_tiles (A.flatMap Piece.text) (Q.flatMap Piece.text)
    (ws.map fun w => w.pieces.flatMap Piece.text)
  rw [← List.flatMap_def, ← List.flatMap_assoc, ← List.flatMap_append, ← List.flatMap_append,
    ← List.flatMap_append] at hrow
  rw [removals_eq_tiles]
  exact hrow

/-! ## 2. New calls taken out -/

/-- Nothing is taken out of calls that declare none of the targets. -/
theorem removals_of_undeclared (imports : Imports) (offset : Nat)
    (h : ∀ k ∈ cs.flatMap (ChainCall.links imports), k.target ∉ targets) :
    (readChain imports offset cs).flatMap (onLinks (removeFromCall targets)) = [] := by
  rw [← links_readChain imports offset] at h
  rw [flatMap_onLinks]
  exact List.flatMap_eq_nil_iff.mpr fun d hd =>
    removeFromCall_eq_nil fun k hk => h k (List.mem_flatMap.mpr ⟨d, hd, hk⟩)

/-- Calls that are written for some of the targets go as a whole. -/
theorem removals_of_written {app : List Target} (offset : Nat)
    (hws : ws.map (fun w => (w.name, w.targets imports)) = app.map fun w => (callName covers, [some w]))
    (hsub : ∀ w ∈ app, w ∈ targets) :
    (readChain imports offset ws).flatMap (onLinks (removeFromCall targets)) =
      (readChain imports offset ws).map removal := by
  induction ws generalizing app offset with
  | nil => rfl
  | cons d ds ih =>
    cases app with
    | nil => cases hws
    | cons w app =>
      obtain ⟨hfirst, hrest⟩ := List.cons.inj hws
      obtain ⟨hname, htargets⟩ := Prod.mk.inj hfirst
      have hlink : (d.read imports offset).isLink = true := by
        rw [d.isLink_read, ChainCall.isLink, hname]
        cases covers <;> rfl
      have hmarks : marks targets (d.read imports offset) = [true] := by
        show (d.targets imports).map _ = _
        rw [htargets]
        simp [hsub w (by simp)]
      have hall : allMarked targets (d.read imports offset) = true := by
        rw [allMarked, hmarks]
        rfl
      rw [readChain, List.flatMap_cons, List.map_cons, ih _ hrest fun u hu => hsub u (by simp [hu]),
        onLinks, if_pos hlink, removeFromCall, if_pos hall]
      rfl

/-! ## 3. Injection into a source -/

/-- All links that are put in are new when the test declares none of them. -/
theorem injectSplices_of_absent {file : File} (habsent : ∀ k ∈ t.links, k.target ∉ targets) :
    injectSplices source file t targets covers =
      if (targets.eraseDups.flatMap fun w => callGap source t ++ writeCall file.imports w covers) = []
      then []
      else [.insert t.case.declarationPoint
        (targets.eraseDups.flatMap fun w => callGap source t ++ writeCall file.imports w covers)] := by
  have hups : upgraded t targets.eraseDups covers = [] := by
    refine List.eq_nil_iff_forall_not_mem.mpr fun w hw => ?_
    obtain ⟨hmem, -, ⟨k, hk, rfl⟩, -⟩ := mem_upgraded.mp hw
    exact habsent k hk (List.mem_eraseDups.mp hmem)
  have happ : appended t targets.eraseDups [] = targets.eraseDups := by
    refine List.filter_eq_self.mpr fun w hw => ?_
    rw [if_neg]
    rw [declares_iff]
    rintro ⟨k, hk, rfl⟩
    exact habsent k hk (List.mem_eraseDups.mp hw)
  rw [injectSplices, hups, happ]
  simp [upgradeCall_nil]

/-- Putting a text into a source after some pieces. -/
theorem applyEdit_insert (A Q N : List Piece) :
    applyEdit ((A ++ Q).flatMap Piece.text) [.insert (Reading.extent A) (N.flatMap Piece.text)] =
      .ok ((A ++ (N ++ Q)).flatMap Piece.text) := by
  have h := applyEdit_inserts (A.flatMap Piece.text) (Q.flatMap Piece.text) [N.flatMap Piece.text]
  rw [List.flatMap_append, List.flatMap_append, List.flatMap_append]
  simpa [Reading.extent] using h

/-- Injecting links that a test does not declare puts calls into its chain, one for each link, after
the last call that declares some. -/
theorem exists_grown_inject {file : File} {i o c : Nat} {keyword : Keyword}
    (hsited : Sited source l file i o c keyword t) (h : Standing source l file.imports c t A cs Q)
    (habsent : ∀ k ∈ t.links, k.target ∉ targets) (hback : ∀ w ∈ targets, ReadsBack file.imports w)
    (htag : ∀ w ∈ targets, "<?".toList <:+: writeArgument file.imports w → "<?".toList <:+: source)
    (covers : Bool) :
    ∃ (cs₁ cs₂ ws : List ChainCall) (l' : TokenSequence) (R : List Piece), cs = cs₁ ++ cs₂ ∧
      R = A ++ cs₁.flatMap ChainCall.pieces ++
        (ws.flatMap ChainCall.pieces ++ (cs₂.flatMap ChainCall.pieces ++ Q)) ∧
      t.case.declarationPoint = Reading.extent (A ++ cs₁.flatMap ChainCall.pieces) ∧
      ws.map (fun w => (w.name, w.targets file.imports)) =
        targets.eraseDups.map (fun w => (callName covers, [some w])) ∧
      Grown o source l (A ++ cs₁.flatMap ChainCall.pieces) (ws.flatMap ChainCall.pieces) R l' ∧
      applyEdit source (injectSplices source file t targets covers) = .ok (R.flatMap Piece.text) ∧
      ((∃ v ∈ (ws.flatMap ChainCall.pieces).filterMap wordOf, isUse v) →
        ∃ w ∈ targets, ∃ x, Expression.parse (writeArgument file.imports w) = .ok x ∧
          ∃ n ∈ x.names, Text.sameLetters n "use" = true) := by
  obtain ⟨cs₁, cs₂, rfl, hnone, hlast⟩ := exists_last_link cs
  have hpoint := h.point hsited hnone hlast
  have hcut₁ : cut source = A ++ (cs₁.flatMap ChainCall.pieces ++
      (cs₂.flatMap ChainCall.pieces ++ Q)) := by
    rw [h.cut]
    simp
  have hcut : cut source = (A ++ cs₁.flatMap ChainCall.pieces) ++
      (cs₂.flatMap ChainCall.pieces ++ Q) := by
    rw [hcut₁, List.append_assoc]
  have hmem : ∀ w ∈ targets.eraseDups, w ∈ targets := fun w hw => List.mem_eraseDups.mp hw
  have hblank := blank_callGap h
  obtain ⟨ws, htext, hnames, hcalls, huse⟩ :=
    exists_written_all hblank (fun w hw => spelled_of_readsBack (hback w (hmem w hw))) covers
  replace hnames := hnames fun w hw => hback w (hmem w hw)
  have hreach : Reaches l (c + 1) (countIn (A ++ cs₁.flatMap ChainCall.pieces)) := by
    have := reaches_of_cut hsited.read hcut₁
    rwa [h.count] at this
  obtain ⟨l', hgrown⟩ := exists_grown hcalls hsited.read hcut hsited.site hreach
    (closes_calls h.closes cs₁) fun ht => by
      rw [htext] at ht
      obtain ⟨w, hw, hin⟩ := tag_of_written hblank ht
      exact htag w (hmem w hw) hin
  refine ⟨cs₁, cs₂, ws, l', _, rfl, rfl, hpoint, hnames, hgrown, ?_, fun hv => ?_⟩
  · rw [injectSplices_of_absent habsent, ← htext, hpoint]
    split
    · rename_i hempty
      rw [applyEdit_nil]
      refine congrArg Except.ok ?_
      conv => lhs; rw [source_eq hcut]
      simp only [List.flatMap_append, hempty, List.nil_append]
    · have happly := applyEdit_insert (A ++ cs₁.flatMap ChainCall.pieces)
        (cs₂.flatMap ChainCall.pieces ++ Q) (ws.flatMap ChainCall.pieces)
      rwa [← source_eq hcut] at happly
  · obtain ⟨w, hw, hrest⟩ := huse hv
    exact ⟨w, hmem w hw, hrest⟩

/-! ## 4. Removal from the result -/

/-- The calls chained to a test name what their arguments name with these imports. -/
def Test.ReadWith (imports : Imports) (t : Test) : Prop :=
  ∀ d ∈ t.chain, d.targets = d.arguments.map (argumentTarget imports)

/-- What is read of calls with other imports, if their arguments name the same targets. -/
theorem readChain_congr {imports' : Imports} (offset : Nat)
    (h : ∀ d ∈ readChain imports' offset cs, d.targets = d.arguments.map (argumentTarget imports)) :
    readChain imports' offset cs = readChain imports offset cs := by
  induction cs generalizing offset with
  | nil => rfl
  | cons c cs ih =>
    have hfirst : c.targets imports' = c.targets imports :=
      (h _ (by rw [readChain]; exact List.mem_cons_self)).trans (targets_of_entries imports _ _)
    rw [readChain, readChain, ih _ fun d hd => h d (by rw [readChain]; exact List.mem_cons_of_mem _ hd),
      ChainCall.read, ChainCall.read, hfirst]

theorem readWith_of_readChain {offset : Nat} (h : t.chain = readChain imports offset cs) :
    t.ReadWith imports := by
  intro d hd
  rw [h] at hd
  obtain ⟨cs₁, c, cs₂, -, rfl⟩ := exists_of_mem_readChain hd
  exact (targets_of_entries imports _ _).symm

/-- **Links put in and taken out.** Links that a test does not declare can be put into its chain, and
the source that is left when they are removed again is the source as it was, wherever the calls of
the test name the targets they name with the imports of that source. -/
theorem remove_inject {file : File} {i : Nat} {r : TestCase} {names : List Text}
    (hread : File.read source = .ok file) (ht : file.tests[i]? = some t) (hr : Recorded t.case r)
    (hnames : parseTargets names = .ok targets) (habsent : ∀ k ∈ t.case.links, k.target ∉ targets)
    (hback : ∀ w ∈ targets, ReadsBack file.imports w)
    (htag : ∀ w ∈ targets, "<?".toList <:+: writeArgument file.imports w → "<?".toList <:+: source)
    (covers : Bool) :
    ∃ out file' t', inject source r names covers = .ok out ∧ File.read out = .ok file' ∧
      file'.tests.length = file.tests.length ∧ file'.tests[i]? = some t' ∧
      (t'.ReadWith file.imports → ∀ r', Recorded t'.case r' → remove out r' names = .ok source) ∧
      (ClearOfImports source t → (∀ w ∈ targets, Writable source file.imports w) →
        t'.ReadWith file.imports) := by
  obtain ⟨l, o, c, keyword, hsited⟩ := exists_sited hread ht
  obtain ⟨A, cs, Q, hstanding⟩ := hsited.exists_standing
  have hlinks := hsited.links hstanding
  have habsent' : ∀ k ∈ t.links, k.target ∉ targets := fun k hk =>
    habsent k (by rw [hsited.case_links]; exact hk)
  obtain ⟨cs₁, cs₂, ws, l', R, rfl, hR, hpoint, hws, hgrown, happly, huse⟩ :=
    exists_grown_inject hsited hstanding habsent' hback htag covers
  have hcut : cut source = (A ++ cs₁.flatMap ChainCall.pieces) ++
      (cs₂.flatMap ChainCall.pieces ++ Q) := by
    rw [hstanding.cut]
    simp
  have hR' : R = A ++ ((cs₁ ++ ws ++ cs₂).flatMap ChainCall.pieces ++ Q) := by
    rw [hR]
    simp
  obtain ⟨file', t', hsited', hstanding', hlength, -⟩ := hsited.relocated hstanding.closes
    hstanding.count hstanding.cut (hgrown.cut.trans hR') hstanding.ends hgrown.read hgrown.frame
  obtain ⟨hfile, htest⟩ := hsited'.file_read
  refine ⟨R.flatMap Piece.text, file', t', ?_, hfile, hlength, htest, fun hsame r' hr' => ?_,
    fun hclear hw => ?_⟩
  · rw [inject_eq (locate_eq hread ht hr) hnames, happly]
  · have hchain : t'.chain = readChain file.imports (Reading.extent A) (cs₁ ++ ws ++ cs₂) := by
      rw [Test.ReadWith, hstanding'.chain] at hsame
      rw [hstanding'.chain, readChain_congr _ hsame]
    have hold : ∀ ds : List ChainCall, (∀ d ∈ ds, d ∈ cs₁ ++ cs₂) →
        ∀ k ∈ ds.flatMap (ChainCall.links file.imports), k.target ∉ targets := by
      intro ds hds k hk
      obtain ⟨d, hd, hkd⟩ := List.mem_flatMap.mp hk
      exact habsent k (by rw [hlinks]; exact List.mem_flatMap.mpr ⟨d, hds d hd, hkd⟩)
    have hsplices : removeSplices t' targets =
        (readChain file.imports (Reading.extent (A ++ cs₁.flatMap ChainCall.pieces)) ws).map
          removal := by
      rw [removeSplices, Test.linkCalls, ← flatMap_onLinks, hchain, readChain_append,
        readChain_append, List.flatMap_append, List.flatMap_append,
        removals_of_undeclared _ _ (hold cs₁ fun d hd => List.mem_append_left _ hd),
        removals_of_undeclared _ _ (hold cs₂ fun d hd => List.mem_append_right _ hd),
        removals_of_written _ hws fun w hw => List.mem_eraseDups.mp hw, extent_append]
      simp
    rw [remove_eq (locate_eq hfile htest hr') hnames, hsplices, hR, apply_removals, ← source_eq hcut]
  · have hnested := nested_of_tokenize hsited.read
    have hlt : c < countIn (A ++ cs₁.flatMap ChainCall.pieces) := by
      rw [countIn_append, hstanding.count]
      omega
    obtain ⟨himports, -⟩ := hgrown.imports c (close_of_siteAt hnested hsited.site) hlt
      (hstanding.apart hsited hpoint hclear) fun hv => by
        obtain ⟨w, hmem, x, hx, n, hn, hsame⟩ := huse hv
        rw [(hw w hmem).use x hx n hn] at hsame
        cases hsame
    rw [← hsited'.imports, ← hsited.imports] at himports
    rw [← himports]
    exact readWith_of_readChain hstanding'.chain

/-- Two links, one of them asked for twice, go into a chain laid out in lines and out of it again. -/
theorem remove_inject_sample : ∃ file t out file' t',
    File.read "<?php\nuse App\\X;\ntest('a')\n  ->links('B');\n" = .ok file ∧ file.tests[0]? = some t ∧
    t.case.links = [⟨⟨"B", none⟩, false⟩] ∧
    inject "<?php\nuse App\\X;\ntest('a')\n  ->links('B');\n" t.case ["App\\X", "C", "App\\X"] true =
      .ok out ∧ File.read out = .ok file' ∧ file'.tests[0]? = some t' ∧
    remove out t'.case ["App\\X", "C", "App\\X"] =
      .ok "<?php\nuse App\\X;\ntest('a')\n  ->links('B');\n" := by
  generalize hsource : ("<?php\nuse App\\X;\ntest('a')\n  ->links('B');\n" : Text) = source
  have h : ((File.read source).toOption.any fun file => file.tests[0]?.any fun t =>
      (t.case.links = [⟨⟨"B", none⟩, false⟩] && usesBefore source t) &&
        ([⟨"App\\X", none⟩, ⟨"C", none⟩, ⟨"App\\X", none⟩] : List Target).all fun w =>
          Writable source file.imports w) = true := by
    rw [← hsource]
    decide +kernel
  obtain ⟨file, hfile, h⟩ := (Option.any_eq_true _ _).mp h
  obtain ⟨t, ht, h⟩ := (Option.any_eq_true _ _).mp h
  obtain ⟨htest, hw⟩ := Bool.and_eq_true_iff.mp h
  obtain ⟨hlinks, huses⟩ := Bool.and_eq_true_iff.mp htest
  have hlinks := of_decide_eq_true hlinks
  have hread := eq_ok_of_toOption hfile
  have hnames : parseTargets ["App\\X", "C", "App\\X"] =
      .ok [⟨"App\\X", none⟩, ⟨"C", none⟩, ⟨"App\\X", none⟩] := by decide +kernel
  have hwritable : ∀ w ∈ ([⟨"App\\X", none⟩, ⟨"C", none⟩, ⟨"App\\X", none⟩] : List Target),
      Writable source file.imports w := fun w hmem => of_decide_eq_true (List.all_eq_true.mp hw w hmem)
  obtain ⟨out, file', t', hout, hread', -, ht', hremove, hsame⟩ := remove_inject hread ht (.refl _)
    hnames (by rw [hlinks]; decide) (fun w hmem => (hwritable w hmem).back)
    (fun w hmem => (hwritable w hmem).tag) true
  exact ⟨file, t, out, file', t', hread, ht, hlinks, hout, hread', ht',
    hremove (hsame (clearOfImports_of_usesBefore huses) hwritable) _ (.refl _)⟩

/-- The splices that remove links from the first test of a source. -/
def firstRemovals (source : Text) (names : List Text) : Option (List Splice) :=
  (firstCase source).bind fun r => (locate source r).toOption.bind fun found =>
    (parseTargets names).toOption.map fun targets => removeSplices found.2 targets

/-- The text a source becomes when links are removed from its first test. -/
def removeFirst (source : Text) (names : List Text) : Option Text :=
  (firstCase source).bind fun r => (remove source r names).toOption

/-- Splices in order are carried out as they stand. -/
theorem removeFirst_of_sorted {out : Text} {names : List Text} {splices : List Splice}
    (h : firstRemovals source names = some splices)
    (hsorted : splices.Pairwise fun a b => Splice.le a b = true)
    (hout : applyInOrder source splices = .ok out) : removeFirst source names = some out := by
  unfold firstRemovals at h
  unfold removeFirst
  obtain ⟨r, hr, h⟩ := Option.bind_eq_some_iff.mp h
  obtain ⟨found, hfound, h⟩ := Option.bind_eq_some_iff.mp h
  obtain ⟨targets, htargets, rfl⟩ := Option.map_eq_some_iff.mp h
  rw [hr, Option.bind_some, remove_eq (eq_ok_of_toOption hfound) (eq_ok_of_toOption htargets),
    applyEdit_of_sorted hsorted, hout]
  rfl

/-- A tag in an argument, and a class called `Use`, can keep a source from being restored. -/
theorem remove_inject_inexact :
    -- a tag in an argument makes inline markup of what was code, and no test is left
    (Yields "test('a');" ["App\\X::<?"] false "test('a')->links('App\\X::<?');" ∧
      firstLinks "test('a')->links('App\\X::<?');" = none) ∧
    -- a class called `Use` is taken for an import, and a name before it loses its namespace
    (Yields "<?php\nnamespace N;\nuse App\\Use;\ntest('a')->links(Foo::class)->note(Foo::class);\n"
        ["App\\Use::m", "Foo"] false ("<?php\nnamespace N;\nuse App\\Use;\n" ++
          "test('a')->links(Foo::class)->links(Use::class.'::m')->links('Foo')->note(Foo::class);\n") ∧
      firstLinks "<?php\nnamespace N;\nuse App\\Use;\ntest('a')->links(Foo::class)->note(Foo::class);\n" =
        some [⟨⟨"N\\Foo", none⟩, false⟩] ∧
      removeFirst ("<?php\nnamespace N;\nuse App\\Use;\n" ++
          "test('a')->links(Foo::class)->links(Use::class.'::m')->links('Foo')->note(Foo::class);\n")
        ["App\\Use::m", "Foo"] =
        some "<?php\nnamespace N;\nuse App\\Use;\ntest('a')->note(Foo::class);\n") := by
  refine ⟨by decide +kernel, by decide +kernel, by decide +kernel, ?_⟩
  have hfirst : firstRemovals ("<?php\nnamespace N;\nuse App\\Use;\n" ++
      "test('a')->links(Foo::class)->links(Use::class.'::m')->links('Foo')->note(Foo::class);\n")
        ["App\\Use::m", "Foo"] =
      some [.delete ⟨41, 60⟩, .delete ⟨60, 85⟩, .delete ⟨85, 99⟩] := by decide +kernel
  exact removeFirst_of_sorted hfirst (by decide) (by decide +kernel)

end Crosslink.FluentChain
