import Crosslink.Source.Imports

/-!
# Class names written and read

A class is written in a file by its alias, by its short name or in full, and what is written is read
again through the same imports. Aliases and names are looked up with the case of letters left out of
account, the one by the full name, the other by the alias, and each takes the first import it finds.

## Main statements

* `resolve_referenceTo_of_none`: a class that is not imported is read again as itself.
* `resolve_referenceTo_of_some`: a class that is imported under an alias is read again as the first
  class imported under it.
* `resolve_referenceTo`: when these two are the same class, only the case of its letters can change.
* `resolve_referenceTo_differs`: where it does change, and where another class is read.
-/

namespace Crosslink

/-! ## §1 Splitting at a separator -/

namespace Text

variable {sep c : Char} {cs text l r : Text}

theorem isPrefixOf_singleton : [sep].isPrefixOf (c :: cs) = (sep == c) := by
  simp [List.isPrefixOf]

theorem splitLast_eq_none (h : splitLast [sep] text = none) : sep ∉ text := by
  induction text with
  | nil => simp
  | cons c cs ih =>
    rw [splitLast] at h
    split at h
    · cases h
    · rename_i hcs
      rw [isPrefixOf_singleton] at h
      split at h
      · cases h
      · rename_i hne
        simp only [List.mem_cons, not_or]
        exact ⟨fun he => hne (beq_iff_eq.mpr he), ih hcs⟩

/-- A text is split at the last separator, after which there is none. -/
theorem splitLast_eq_some (h : splitLast [sep] text = some (l, r)) :
    text = l ++ sep :: r ∧ sep ∉ r := by
  induction text generalizing l with
  | nil => simp [splitLast] at h
  | cons c cs ih =>
    rw [splitLast] at h
    split at h
    · rename_i l' r' hcs
      obtain ⟨rfl, rfl⟩ := Prod.mk.inj (Option.some.inj h)
      obtain ⟨rfl, hr⟩ := ih hcs
      exact ⟨rfl, hr⟩
    · rename_i hcs
      rw [isPrefixOf_singleton] at h
      split at h
      · rename_i he
        obtain rfl : sep = c := beq_iff_eq.mp he
        obtain ⟨rfl, rfl⟩ := Prod.mk.inj (Option.some.inj h)
        exact ⟨rfl, splitLast_eq_none hcs⟩
      · cases h

/-- A text without a separator is not split. -/
theorem splitFirst_of_not_mem (h : sep ∉ text) : splitFirst [sep] text = none := by
  induction text with
  | nil => rfl
  | cons c cs ih =>
    obtain ⟨hc, hcs⟩ := not_or.mp (fun hmem => h (List.mem_cons.mpr hmem))
    rw [splitFirst, isPrefixOf_singleton, if_neg (by simpa using hc), ih hcs]
    rfl

end Text

namespace Source

theorem relativeName_of_unrooted {name : Text} (h : name.head? ≠ some '\\') :
    relativeName name = name := by
  cases name with
  | nil => rfl
  | cons c cs =>
    have hc : c ≠ '\\' := by simpa using h
    simp [relativeName, hc]

namespace Imports

variable {imports : Imports} {name : Text}

/-! ## §2 Reading -/

theorem resolve_rooted (imports : Imports) (full : Text) : imports.resolve ('\\' :: full) = full :=
  rfl

/-- A name without backslashes stands for the first class imported under it, and for a class of the
file's namespace when there is none. -/
theorem resolve_of_not_mem (h : '\\' ∉ name) :
    imports.resolve name =
      match imports.uses.find? fun u => Text.sameLetters u.1 name with
      | some u => u.2
      | none => if imports.ns = [] then name else imports.ns ++ "\\" ++ name := by
  unfold resolve
  split
  · simp at h
  · rw [Text.splitFirst_of_not_mem h]
    dsimp only
    cases imports.uses.find? fun u => Text.sameLetters u.1 name with
    | none => rfl
    | some u => rfl

/-! ## §3 Writing and reading -/

/-- The import a class is written by: the first that names it, the case of letters left out of
account. -/
def importOf (imports : Imports) (name : Text) : Option (Text × Text) :=
  imports.uses.find? fun u => Text.sameLetters u.2 name

theorem localName_of_unrooted (h : name.head? ≠ some '\\') :
    imports.localName name = (imports.importOf name).map Prod.fst := by
  rw [localName, relativeName_of_unrooted h, importOf]

theorem sameLetters_of_importOf {u : Text × Text} (h : imports.importOf name = some u) :
    Text.sameLetters u.2 name = true := by
  simpa using List.find?_some h

/-- A class that is not imported is read again as itself. -/
theorem resolve_referenceTo_of_none (h : name.head? ≠ some '\\')
    (hnone : imports.importOf name = none) :
    imports.resolve (imports.referenceTo name) = name := by
  have hlocal : imports.localName name = none := by rw [localName_of_unrooted h, hnone]; rfl
  rw [referenceTo, relativeName_of_unrooted h, hlocal]
  dsimp only
  split
  · -- the short name: no alias hides it, so it is put behind the namespace again
    rename_i hshort
    obtain ⟨hns, hhidden⟩ := Bool.and_eq_true_iff.mp hshort
    have hfind : imports.uses.find? (fun u => Text.sameLetters u.1
        ((Text.splitLast ['\\'] name).getD ([], name)).2) = none := by
      rw [List.find?_eq_none]
      simpa using hhidden
    replace hns : ((Text.splitLast ['\\'] name).getD ([], name)).1 = imports.ns :=
      of_decide_eq_true hns
    cases hsplit : Text.splitLast ['\\'] name with
    | none =>
      rw [hsplit] at hfind hns
      simp only [Option.getD_none] at hfind hns ⊢
      rw [resolve_of_not_mem (Text.splitLast_eq_none hsplit), hfind]
      simp [← hns]
    | some split =>
      obtain ⟨l, r⟩ := split
      rw [hsplit] at hfind hns
      simp only [Option.getD_some] at hfind hns ⊢
      obtain ⟨rfl, hr⟩ := Text.splitLast_eq_some hsplit
      have hl : l ≠ [] := by
        rintro rfl
        simp at h
      rw [resolve_of_not_mem hr, hfind, ← hns]
      simp [hl]
  · exact resolve_rooted imports name

/-- A class that is imported under an alias is read again as the first class imported under it. -/
theorem resolve_referenceTo_of_some (h : name.head? ≠ some '\\') {u : Text × Text}
    (hu : imports.importOf name = some u) (hplain : '\\' ∉ u.1) :
    ∃ v, imports.uses.find? (fun v => Text.sameLetters v.1 u.1) = some v ∧
      imports.resolve (imports.referenceTo name) = v.2 := by
  have hlocal : imports.localName name = some u.1 := by rw [localName_of_unrooted h, hu]; rfl
  rw [referenceTo, relativeName_of_unrooted h, hlocal]
  dsimp only
  rw [resolve_of_not_mem hplain]
  cases hv : imports.uses.find? (fun v => Text.sameLetters v.1 u.1) with
  | some v => exact ⟨v, rfl, rfl⟩
  | none =>
    have := List.find?_eq_none.mp hv u (List.mem_of_find?_eq_some hu)
    simp [Text.sameLetters] at this

/-- The import a class is written by is the one it is read by, if no other class is imported under
its alias: each of the two is the first of its kind. -/
theorem eq_importOf {u v : Text × Text} (hu : imports.importOf name = some u)
    (hclear : ∀ v ∈ imports.uses, Text.sameLetters v.1 u.1 = true →
      Text.sameLetters v.2 name = true)
    (hv : imports.uses.find? (fun v => Text.sameLetters v.1 u.1) = some v) : v = u := by
  obtain ⟨hname, before, after, huses, hbefore⟩ := List.find?_eq_some_iff_append.mp hu
  rw [huses, List.find?_append] at hv
  have hnone : before.find? (fun v => Text.sameLetters v.1 u.1) = none := by
    rw [List.find?_eq_none]
    intro w hw halias
    have hother := hclear w (by rw [huses]; exact List.mem_append_left _ hw) halias
    simpa [hother] using hbefore w hw
  rw [hnone, Option.none_or, List.find?_cons_of_pos (by simp [Text.sameLetters])] at hv
  exact (Option.some.inj hv).symm

/-- **A class that is written is read again.** If no other class is imported under its alias, and the
alias is a plain word, only the case of letters can change; and it does not exactly when the class is
not imported or the import spells it the same way. -/
theorem resolve_referenceTo (imports : Imports) (name : Text) (hname : name.head? ≠ some '\\')
    (hplain : ∀ u, imports.importOf name = some u → '\\' ∉ u.1)
    (hclear : ∀ u, imports.importOf name = some u →
      ∀ v ∈ imports.uses, Text.sameLetters v.1 u.1 = true → Text.sameLetters v.2 name = true) :
    Text.sameLetters (imports.resolve (imports.referenceTo name)) name = true ∧
      (imports.resolve (imports.referenceTo name) = name ↔
        ∀ u, imports.importOf name = some u → u.2 = name) := by
  cases hu : imports.importOf name with
  | none =>
    rw [resolve_referenceTo_of_none hname hu]
    simp [Text.sameLetters]
  | some u =>
    obtain ⟨v, hv, hresolve⟩ := resolve_referenceTo_of_some hname hu (hplain u hu)
    obtain rfl := eq_importOf hu (hclear u hu) hv
    rw [hresolve]
    exact ⟨sameLetters_of_importOf hu, by simp⟩

/-- The imports of a source text, if it can be read. -/
def ofSource? (source : Text) : Option Imports := (tokenize source).toOption.map ofTokens

/-- A file with a namespace and two imports, one of which spells its class another way. -/
theorem resolve_referenceTo_spelling :
    let imports : Imports :=
      ⟨"Tests", [("Y", "App\\X"), ("user", "app\\user")]⟩
    ofSource? "<?php\nnamespace Tests;\nuse App\\X as Y;\nuse app\\user;\n" = some imports ∧
    ("App\\User" : Text).head? ≠ some '\\' ∧
    (∀ u, imports.importOf "App\\User" = some u → '\\' ∉ u.1) ∧
    (∀ u, imports.importOf "App\\User" = some u →
      ∀ v ∈ imports.uses, Text.sameLetters v.1 u.1 = true →
        Text.sameLetters v.2 "App\\User" = true) ∧
    Text.sameLetters (imports.resolve (imports.referenceTo "App\\User")) "App\\User" = true ∧
      (imports.resolve (imports.referenceTo "App\\User") = "App\\User" ↔
        ∀ u, imports.importOf "App\\User" = some u → u.2 = "App\\User") := by
  intro imports
  have hu : imports.importOf "App\\User" = some (("user" : Text), ("app\\user" : Text)) := by decide
  have hplain : ∀ u, imports.importOf "App\\User" = some u → '\\' ∉ u.1 := by
    rintro u h
    obtain rfl := Option.some.inj (hu.symm.trans h)
    decide
  have hclear : ∀ u, imports.importOf "App\\User" = some u →
      ∀ v ∈ imports.uses, Text.sameLetters v.1 u.1 = true →
        Text.sameLetters v.2 "App\\User" = true := by
    rintro u h
    obtain rfl := Option.some.inj (hu.symm.trans h)
    decide
  exact ⟨by decide +kernel, by decide, hplain, hclear,
    resolve_referenceTo imports "App\\User" (by decide) hplain hclear⟩

/-- The case of letters changes with an import in another spelling; and where an alias is given
twice, or is no plain word, what is written stands for another class. -/
theorem resolve_referenceTo_differs :
    -- the import is found, and gives its own spelling
    ((ofSource? "<?php\nuse app\\user;\n").map fun imports =>
        imports.resolve (imports.referenceTo "App\\User")) = some "app\\user" ∧
    -- two namespaces of one file import classes of one short name
    ((ofSource? "<?php\nnamespace A \x7b use P\\X; \x7d\nnamespace B \x7b use Q\\X; \x7d\n").map
        fun imports => imports.resolve (imports.referenceTo "Q\\X")) = some "P\\X" ∧
    -- the alias is itself a qualified name
    ((ofSource? "<?php\nuse A as B\\C;\n").map fun imports =>
        imports.resolve (imports.referenceTo "A")) = some "B\\C" := by
  refine ⟨by decide +kernel, by decide +kernel, by decide +kernel⟩

end Imports

end Source

end Crosslink
