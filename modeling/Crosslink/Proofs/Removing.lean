import Crosslink.Proofs.Injecting

/-!
# Links taken out of a chain

Links are taken out of a chain item by item, a call going as a whole when it loses all its items.
Read again, the test declares the links that were not taken, and all other tests declare what they
declared.

## Main statements

* `FluentChain.links_of_remove`: what is read of a source after links are removed from a test.
-/

namespace Crosslink.FluentChain

open Source Source.TokenSequence

variable {source : Text} {l : TokenSequence} {t : Test} {targets : List Target}

/-- The changes that remove links from a test. -/
def removeSplices (t : Test) (targets : List Target) : List Splice :=
  t.linkCalls.flatMap (removeFromCall targets)

theorem remove_eq {file : File} {r : TestCase} {names : List Text}
    (hlocate : locate source r = .ok (file, t)) (hnames : parseTargets names = .ok targets) :
    remove source r names = applyEdit source (removeSplices t targets) := by
  simp only [remove, hlocate, hnames, bind, Except.bind, removeSplices]

/-- There is nothing to remove from a call that declares none of the targets. -/
theorem removeFromCall_eq_nil {c : Call} (h : ∀ k ∈ c.links, k.target ∉ targets) :
    removeFromCall targets c = [] := by
  have hmarks : (marks targets c).any id = false := by
    rw [marks, List.any_map, List.any_eq_false]
    intro u hu hcontains
    obtain ⟨w, rfl, hw⟩ := (Option.any_eq_true _ _).mp hcontains
    have hlink : ⟨w, c.covers⟩ ∈ c.links := List.mem_filterMap.mpr ⟨some w, hu, rfl⟩
    exact h _ hlink (List.contains_iff_mem.mp hw)
  simp [removeFromCall, allMarked, hmarks]

/-- Where no target is declared there is nothing to remove. -/
theorem removeSplices_eq_nil (h : ∀ k ∈ t.links, k.target ∉ targets) :
    removeSplices t targets = [] :=
  List.flatMap_eq_nil_iff.mpr fun c hc =>
    removeFromCall_eq_nil fun k hk => h k (List.mem_flatMap.mpr ⟨c, hc, hk⟩)

/-- The splices that remove links are changes of the chain up to its last call that declares some. -/
theorem changes_of_remove (targets : List Target) {file : File} {i o c : Nat} {keyword : Keyword} {A Q : List Piece}
    {cs₁ cs₂ : List ChainCall} (hsited : Sited source l file i o c keyword t)
    (h : Standing source l file.imports c t A (cs₁ ++ cs₂) Q) (hnone : ∀ d ∈ cs₂, d.isLink = false)
    (hsp : Spaced (cut source)) :
    Changes l (c + 1) ("<?".toList <:+: source) (A ++ cs₁.flatMap ChainCall.pieces)
      (removeSplices t targets)
      (A ++ (cs₁.flatMap (ChainCall.edited (fun _ => []) file.imports targets)).flatMap
        ChainCall.pieces) := by
  have hreach : Reaches l (c + 1) (countIn A) := by
    rw [h.count]
    exact .refl _
  have hcut : cut source = A ++ (cs₁.flatMap ChainCall.pieces ++
      (cs₂.flatMap ChainCall.pieces ++ Q)) := by
    rw [h.cut]
    simp
  have hall : ∀ d ∈ cs₁, Amends source l file.imports (c + 1) ("<?".toList <:+: source)
      (onLinks (removeFromCall targets)) (ChainCall.edited (fun _ => []) file.imports targets) d :=
    fun d _ => amends_remove hsited.read hsp
  have hchanges := changes_of_calls hsited.read hall hreach h.closes (.nil A) hcut
  have hsplices : (readChain file.imports (Reading.extent A) cs₁).flatMap
      (onLinks (removeFromCall targets)) = removeSplices t targets := by
    rw [flatMap_onLinks, removeSplices, Test.linkCalls, h.chain, readChain_append, List.filter_append,
      filter_readChain_of_none _ _ hnone, List.append_nil]
  rwa [List.nil_append, hsplices] at hchanges

/-- **Links removed from a chain.** Wherever a test of a source is recorded, links can be removed
from it; the source that is left holds as many tests, the test at the same place declares the links
that were not removed, in their order, and every other test declares what it declared. -/
theorem links_of_remove {file : File} {i : Nat} {r : TestCase} {names : List Text}
    (hread : File.read source = .ok file) (ht : file.tests[i]? = some t) (hr : Recorded t.case r)
    (hnames : parseTargets names = .ok targets) (hsp : Spaced (cut source))
    (hclear : ClearOfImports source t) :
    ∃ out file' t', remove source r names = .ok out ∧ File.read out = .ok file' ∧
      file'.tests.length = file.tests.length ∧ file'.tests[i]? = some t' ∧
      t'.case.links = t.case.links.filter (unwanted targets) ∧
      ∀ j, j ≠ i → (file'.tests[j]?).map (·.case.links) = (file.tests[j]?).map (·.case.links) := by
  obtain ⟨l, o, c, keyword, hsited⟩ := exists_sited hread ht
  obtain ⟨A, cs, Q, hstanding⟩ := hsited.exists_standing
  obtain ⟨cs₁, cs₂, rfl, hnone, hlast⟩ := exists_last_link cs
  have hcut : cut source = (A ++ cs₁.flatMap ChainCall.pieces) ++
      (cs₂.flatMap ChainCall.pieces ++ Q) := by
    rw [hstanding.cut]
    simp
  generalize hleft : cs₁.flatMap (ChainCall.edited (fun _ => []) file.imports targets) = left
  have hchanges := changes_of_remove targets hsited hstanding hnone hsp
  rw [hleft] at hchanges
  have hcut' : A ++ left.flatMap ChainCall.pieces ++ (cs₂.flatMap ChainCall.pieces ++ Q) =
      A ++ ((left ++ cs₂).flatMap ChainCall.pieces ++ Q) := by
    simp
  obtain ⟨out, l', file', t', happly, hedited, -, hsited', hstanding'⟩ := exists_edited hsited
    hstanding.closes hstanding.count hchanges hcut (List.prefix_append _ _) hcut' hstanding.ends hsp
    (hstanding.apart hsited (hstanding.point hsited hnone hlast) hclear)
  refine ⟨out, file', t', ?_, hedited.read, hedited.length, hedited.test, ?_, hedited.others⟩
  · rw [remove_eq (locate_eq hread ht hr) hnames, happly]
  · rw [hsited'.links hstanding', hsited.links hstanding, hedited.imports, List.flatMap_append,
      List.flatMap_append, links_of_none hnone, List.append_nil, List.append_nil, ← hleft,
      links_removed]

/-- A source is left as it is when none of the links to be removed is declared. -/
theorem remove_of_undeclared {file : File} {i : Nat} {r : TestCase} {names : List Text}
    (hread : File.read source = .ok file) (ht : file.tests[i]? = some t) (hr : Recorded t.case r)
    (hnames : parseTargets names = .ok targets) (h : ∀ k ∈ t.case.links, k.target ∉ targets) :
    remove source r names = .ok source := by
  obtain ⟨l, o, c, keyword, hsited⟩ := exists_sited hread ht
  rw [hsited.case_links] at h
  rw [remove_eq (locate_eq hread ht hr) hnames, removeSplices_eq_nil h, applyEdit_nil]

end Crosslink.FluentChain
