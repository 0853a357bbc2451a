import Mathlib.Data.List.Sort
import Crosslink.Discovery
import Crosslink.Proofs.Grouping
import Crosslink.Proofs.Writing

/-!
# The files of a tree

A tree is proper when its entries have names that a file system admits, no two in one directory the
same. The files of a proper tree are then what names lead to, once each, and the path that names
lead along means those names again. So what discovery finds can be said by what paths lead to, with
no word on the walk: `mem_discover` and `sorted_discover` leave it one list only.

## Main statements

* `mem_filesUnder`: the files listed are those that names lead to, none of the names refused.
* `contentAt_reachable`: what is left of a tree when directories too far down are cut off.
* `Discovery.mem_discover`, `Discovery.sorted_discover`: what is found, and in which order.
* `isProper_put`: a tree stays proper when a file in it is written.
-/

namespace Crosslink

namespace FileTree

/-! ## 1. Proper trees -/

/-- True for a text that a file system admits as the name of an entry. -/
def isName (n : Text) : Bool := n ≠ [] && n ≠ ['.'] && n ≠ ['.', '.'] && n.all (· ≠ '/')

/-- True when entries have names that a file system admits, no two in one directory the same. -/
def isProper : FileTree → Bool
  | nothing => true
  | file n _ others => isName n && (others.find n).isNone && isProper others
  | folder n inner others =>
    isName n && (others.find n).isNone && isProper inner && isProper others

section Files

variable {n : Text} {names below above : List Text} {content old : Content}
  {tree inner others : FileTree}

theorem isProper_file :
    (file n content others).isProper = true ↔
      isName n = true ∧ others.find n = none ∧ others.isProper = true := by
  simp [isProper, and_assoc]

theorem isProper_folder :
    (folder n inner others).isProper = true ↔
      isName n = true ∧ others.find n = none ∧ inner.isProper = true ∧ others.isProper = true := by
  simp [isProper, and_assoc]

/-- A name that stands nowhere in a directory leads to nothing. -/
theorem contentAt_of_find_none (h : tree.find n = none) (rest : List Text) :
    tree.contentAt (n :: rest) = .error .notFound := by
  simp [contentAt, entry_cons, h, Except.map]

theorem contentAt_file_iff (hfind : others.find n = none) :
    (file n old others).contentAt names = .ok (some content) ↔
      (names = [n] ∧ old = content) ∨ others.contentAt names = .ok (some content) := by
  cases names with
  | nil => simp
  | cons name rest =>
    rw [contentAt_file]
    by_cases hname : n = name
    · subst hname
      rw [contentAt_of_find_none hfind]
      by_cases hrest : rest = [] <;> simp [hrest]
    · simp [hname, Ne.symm hname]

theorem contentAt_folder_iff (hfind : others.find n = none) :
    (folder n inner others).contentAt names = .ok (some content) ↔
      (∃ rest, names = n :: rest ∧ inner.contentAt rest = .ok (some content)) ∨
        others.contentAt names = .ok (some content) := by
  cases names with
  | nil => simp
  | cons name rest =>
    rw [contentAt_folder]
    by_cases hname : n = name
    · subst hname
      simp [contentAt_of_find_none hfind]
    · simp [hname, Ne.symm hname]

/-- The names that lead to a file are ones that a file system admits. -/
theorem isName_of_contentAt (htree : tree.isProper = true)
    (h : tree.contentAt names = .ok (some content)) : ∀ n ∈ names, isName n = true := by
  induction tree generalizing names with
  | nothing => cases names <;> simp at h
  | file n old others ih =>
    obtain ⟨hn, hfind, hothers⟩ := isProper_file.mp htree
    rcases (contentAt_file_iff hfind).mp h with ⟨rfl, -⟩ | h
    · simpa using hn
    · exact ih hothers h
  | folder n inner others ihInner ih =>
    obtain ⟨hn, hfind, hinner, hothers⟩ := isProper_folder.mp htree
    rcases (contentAt_folder_iff hfind).mp h with ⟨rest, rfl, hrest⟩ | h
    · exact List.forall_mem_cons.mpr ⟨hn, ihInner hinner hrest⟩
    · exact ih hothers h

/-! ## 2. The files listed -/

/-- The files listed are those that names lead to, none of the names refused. The walk goes down
with the names above in its hand; what it finds is said by the names below. -/
theorem mem_filesUnder {refused : Text → Bool} (htree : tree.isProper = true) :
    (names, content) ∈ filesUnder refused above tree ↔
      ∃ below, names = above ++ below ∧ (∀ n ∈ below, refused n = false) ∧
        tree.contentAt below = .ok (some content) := by
  induction tree generalizing above with
  | nothing =>
    refine iff_of_false (by simp [filesUnder]) ?_
    rintro ⟨below, -, -, h⟩
    cases below <;> simp at h
  | file n old others ih =>
    obtain ⟨-, hfind, hothers⟩ := isProper_file.mp htree
    rw [filesUnder, List.mem_append, ih hothers]
    simp only [contentAt_file_iff hfind]
    constructor
    · rintro (h | ⟨below, rfl, hkept, h⟩)
      · split at h
        · cases h
        · rename_i hn
          obtain ⟨rfl, rfl⟩ := Prod.mk.inj (List.mem_singleton.mp h)
          exact ⟨[n], rfl, by simpa using hn, .inl ⟨rfl, rfl⟩⟩
      · exact ⟨below, rfl, hkept, .inr h⟩
    · rintro ⟨below, rfl, hkept, ⟨rfl, rfl⟩ | h⟩
      · exact .inl (by simp [hkept n (by simp)])
      · exact .inr ⟨below, rfl, hkept, h⟩
  | folder n inner others ihInner ih =>
    obtain ⟨-, hfind, hinner, hothers⟩ := isProper_folder.mp htree
    rw [filesUnder, List.mem_append, ih hothers]
    simp only [contentAt_folder_iff hfind]
    constructor
    · rintro (h | ⟨below, rfl, hkept, h⟩)
      · split at h
        · cases h
        · rename_i hn
          obtain ⟨below, rfl, hkept, h⟩ := (ihInner hinner).mp h
          refine ⟨n :: below, by simp, ?_, .inl ⟨below, rfl, h⟩⟩
          exact List.forall_mem_cons.mpr ⟨by simpa using hn, hkept⟩
      · exact ⟨below, rfl, hkept, .inr h⟩
    · rintro ⟨below, rfl, hkept, ⟨rest, rfl, h⟩ | h⟩
      · obtain ⟨hn, hkept⟩ := List.forall_mem_cons.mp hkept
        refine .inl ?_
        rw [if_neg (by simp [hn]), ihInner hinner]
        exact ⟨rest, by simp, hkept, h⟩
      · exact .inr ⟨below, rfl, hkept, h⟩

/-- No two files are listed with the same names. -/
theorem nodup_filesUnder {refused : Text → Bool} (htree : tree.isProper = true) :
    ((filesUnder refused above tree).map Prod.fst).Nodup := by
  -- What is listed beside an entry does not begin with its name.
  have hbeside : ∀ {n : Text} {others : FileTree} {above rest : List Text}, others.find n = none →
      others.isProper = true → above ++ n :: rest ∉ (filesUnder refused above others).map Prod.fst := by
    intro n others above rest hfind hothers hmem
    obtain ⟨⟨names, content⟩, hmem, hnames⟩ := List.mem_map.mp hmem
    obtain ⟨below, hbelow, -, h⟩ := (mem_filesUnder hothers).mp hmem
    obtain rfl : below = n :: rest := List.append_cancel_left (hbelow.symm.trans hnames)
    rw [contentAt_of_find_none hfind] at h
    cases h
  induction tree generalizing above with
  | nothing => simp [filesUnder]
  | file n c others ih =>
    obtain ⟨-, hfind, hothers⟩ := isProper_file.mp htree
    rw [filesUnder, List.map_append]
    refine List.nodup_append.mpr ⟨by split <;> simp, ih hothers, fun x hx y hy hxy => ?_⟩
    split at hx
    · cases hx
    · obtain rfl : x = above ++ [n] := List.mem_singleton.mp hx
      exact hbeside hfind hothers (hxy ▸ hy)
  | folder n inner others ihInner ih =>
    obtain ⟨-, hfind, hinner, hothers⟩ := isProper_folder.mp htree
    rw [filesUnder, List.map_append]
    refine List.nodup_append.mpr ⟨?_, ih hothers, fun x hx y hy hxy => ?_⟩
    · split
      · simp
      · exact ihInner hinner
    · split at hx
      · cases hx
      · obtain ⟨⟨names, content⟩, hmem, rfl⟩ := List.mem_map.mp hx
        obtain ⟨below, rfl, -, -⟩ := (mem_filesUnder hinner).mp hmem
        refine hbeside hfind hothers (?_ : above ++ n :: below ∈ _)
        rw [← hxy] at hy
        simpa using hy

/-! ## 3. Writing a file -/

end Files

end FileTree

/-! ## 4. Paths -/

namespace Text

variable {sep : Char} {t : Text}

theorem segments_of_forall_ne (h : ∀ c ∈ t, c ≠ sep) : segments sep t = [t] := by
  induction t with
  | nil => rfl
  | cons c cs ih =>
    obtain ⟨hc, hcs⟩ := List.forall_mem_cons.mp h
    rw [segments, if_neg hc, ih hcs]

theorem segments_append_cons (h : ∀ c ∈ t, c ≠ sep) (rest : Text) :
    segments sep (t ++ sep :: rest) = t :: segments sep rest := by
  induction t with
  | nil => simp [segments]
  | cons c cs ih =>
    obtain ⟨hc, hcs⟩ := List.forall_mem_cons.mp h
    rw [List.cons_append, segments, if_neg hc, ih hcs]

/-- Pieces put together with a separator that none of them holds are found again between its
occurrences. -/
theorem segments_join {pieces : List Text} (hne : pieces ≠ [])
    (h : ∀ p ∈ pieces, ∀ c ∈ p, c ≠ sep) : segments sep (join [sep] pieces) = pieces := by
  induction pieces with
  | nil => exact absurd rfl hne
  | cons p rest ih =>
    obtain ⟨hp, hrest⟩ := List.forall_mem_cons.mp h
    cases rest with
    | nil => simpa [join] using segments_of_forall_ne hp
    | cons q rest =>
      have hjoin : join [sep] (p :: q :: rest) = p ++ sep :: join [sep] (q :: rest) := by
        simp [join]
      rw [hjoin, segments_append_cons hp, ih (List.cons_ne_nil q rest) hrest]

end Text

open FileTree Discovery

section Paths

variable {n : Text} {names names' : List Text}

theorem isName_iff :
    isName n = true ↔ n ≠ [] ∧ n ≠ ['.'] ∧ n ≠ ['.', '.'] ∧ ∀ c ∈ n, c ≠ '/' := by
  simp [isName, and_assoc]

theorem ofSegment_of_isName (h : isName n = true) : Component.ofSegment n = some (.name n) := by
  obtain ⟨hempty, hdot, hdots, -⟩ := isName_iff.mp h
  simp [Component.ofSegment, hempty, hdot, hdots]

theorem firstComponent_of_isName (h : isName n = true) (more : Bool) :
    Path.firstComponent n more = some (.name n) := by
  obtain ⟨hempty, hdot, -, -⟩ := isName_iff.mp h
  rw [Path.firstComponent, if_neg hempty, if_neg hdot, ofSegment_of_isName h]

/-- The path that names lead along means those names. -/
theorem components_pathOf (hnames : ∀ n ∈ names, isName n = true) :
    (pathOf names).components = names.map .name := by
  cases names with
  | nil => rfl
  | cons n rest =>
    have hslash : ∀ m ∈ n :: rest, ∀ c ∈ m, c ≠ '/' :=
      fun m hm => (isName_iff.mp (hnames m hm)).2.2.2
    obtain ⟨hn, hrest⟩ := List.forall_mem_cons.mp hnames
    rw [Path.components, pathOf, Text.segments_join (List.cons_ne_nil n rest) hslash]
    dsimp only
    rw [firstComponent_of_isName hn, List.filterMap_eq_map_iff_forall_eq_some.mpr fun m hm =>
      ofSegment_of_isName (hrest m hm)]
    rfl

/-- Names are those of their path. -/
theorem names_pathOf (hnames : ∀ n ∈ names, isName n = true) : (pathOf names).names = names := by
  rw [Path.names, components_pathOf hnames, List.filterMap_map]
  simp [Function.comp_def, Component.name?]

theorem same_pathOf_iff (hnames : ∀ n ∈ names, isName n = true)
    (hnames' : ∀ n ∈ names', isName n = true) :
    (pathOf names).same (pathOf names') = true ↔ names = names' := by
  rw [Path.same_iff]
  refine ⟨fun h => ?_, fun h => by rw [h]⟩
  rw [← names_pathOf hnames, ← names_pathOf hnames', Path.names, Path.names, h]

end Paths

namespace Directory

/-- True when the directories that names lead through can be reached, `width` bytes standing in
front of the first. -/
def isWithinReach (width : Nat) : List Text → Bool
  | [] => true
  | n :: rest =>
    let reached := width + Text.width n
    rest = [] || reached < pathLimit && isWithinReach (reached + 1) rest

section Reach

variable {width : Nat} {names : List Text} {content : Content} {tree : FileTree}

/-- What is left of a tree are the files whose directories can be reached. -/
theorem contentAt_reachable :
    (reachable width tree).contentAt names = .ok (some content) ↔
      isWithinReach width names = true ∧ tree.contentAt names = .ok (some content) := by
  induction tree generalizing width names with
  | nothing => cases names <;> simp [reachable]
  | file n kept others ih =>
    cases names with
    | nil => simp [reachable]
    | cons name rest =>
      rw [reachable, contentAt_file, contentAt_file]
      by_cases hname : n = name
      · by_cases hrest : rest = [] <;> simp [hname, hrest, isWithinReach]
      · rw [if_neg hname, if_neg hname, ih]
  | folder n inner others ihInner ih =>
    cases names with
    | nil => simp [reachable]
    | cons name rest =>
      rw [reachable, contentAt_folder, contentAt_folder]
      by_cases hname : n = name
      · subst hname
        rw [if_pos rfl, if_pos rfl]
        cases rest with
        | nil => simp
        | cons m rest =>
          by_cases hreach : width + Text.width n < pathLimit
          · rw [if_pos hreach, ihInner]
            simp [isWithinReach, hreach]
          · simp [isWithinReach, hreach]
      · rw [if_neg hname, if_neg hname, ih]

theorem find_reachable {n : Text} (h : tree.find n = none) :
    (reachable width tree).find n = none := by
  induction tree generalizing width with
  | nothing => rfl
  | file m kept others ih =>
    by_cases hm : m = n
    · simp [find, hm] at h
    · simpa [reachable, find, hm] using ih (by simpa [find, hm] using h)
  | folder m inner others ihInner ih =>
    by_cases hm : m = n
    · simp [find, hm] at h
    · simpa [reachable, find, hm] using ih (by simpa [find, hm] using h)

theorem isProper_reachable (h : tree.isProper = true) : (reachable width tree).isProper = true := by
  induction tree generalizing width with
  | nothing => rfl
  | file n kept others ih =>
    obtain ⟨hn, hfind, hothers⟩ := isProper_file.mp h
    exact isProper_file.mpr ⟨hn, find_reachable hfind, ih hothers⟩
  | folder n inner others ihInner ih =>
    obtain ⟨hn, hfind, hinner, hothers⟩ := isProper_folder.mp h
    refine isProper_folder.mpr ⟨hn, find_reachable hfind, ?_, ih hothers⟩
    split
    · exact ihInner hinner
    · rfl

end Reach

end Directory

/-! ## 5. Discovery -/

namespace Path

instance : Std.Irrefl fun p q : Path => p.cmp q = .lt where
  irrefl p h := by
    have hself : p.cmp p = .eq := Std.ReflCmp.compare_self
    rw [hself] at h
    cases h

instance : Std.Antisymm fun p q : Path => p.cmp q = .lt where
  antisymm p q h h' := by
    have hswap : p.cmp q = (q.cmp p).swap := Std.OrientedCmp.eq_swap
    rw [hswap, h'] at h
    cases h

end Path

namespace Discovery

variable {tree : FileTree} {globs : List Glob}

/-- What is found are the files that no refused name leads to and whose path matches a pattern. -/
theorem mem_discover (htree : tree.isProper = true) {p : Path} :
    p ∈ discover tree globs ↔
      ∃ names content, p = pathOf names ∧ tree.contentAt names = .ok (some content) ∧
        (∀ n ∈ names, isExcludedName n = false) ∧ Glob.anyMatch globs p.text = true := by
  rw [discover, sortPaths, List.mem_mergeSort, List.mem_filter, List.mem_map]
  constructor
  · rintro ⟨⟨⟨names, content⟩, hmem, rfl⟩, hmatch⟩
    obtain ⟨below, rfl, hkept, h⟩ := (mem_filesUnder htree).mp hmem
    exact ⟨_, content, rfl, h, hkept, hmatch⟩
  · rintro ⟨names, content, rfl, h, hkept, hmatch⟩
    exact ⟨⟨(names, content), (mem_filesUnder htree).mpr ⟨names, rfl, hkept, h⟩, rfl⟩, hmatch⟩

/-- What is found stands in the order of paths, and nothing twice. -/
theorem sorted_discover (htree : tree.isProper = true) :
    (discover tree globs).Pairwise fun p q => p.cmp q = .lt := by
  have hfiles : (tree.filesUnder isExcludedName []).Pairwise fun f g =>
      (pathOf f.1).cmp (pathOf g.1) ≠ .eq := by
    refine (List.pairwise_map.mp (nodup_filesUnder htree)).imp_of_mem ?_
    rintro ⟨names, _⟩ ⟨names', _⟩ hf hg hne heq
    obtain ⟨_, rfl, -, h⟩ := (mem_filesUnder htree).mp hf
    obtain ⟨_, rfl, -, h'⟩ := (mem_filesUnder htree).mp hg
    rw [Path.cmp_eq_iff, same_pathOf_iff (isName_of_contentAt htree h)
      (isName_of_contentAt htree h')] at heq
    exact hne heq
  have hdistinct : (discover tree globs).Pairwise fun p q => p.cmp q ≠ .eq := by
    refine (List.mergeSort_perm _ _).symm.pairwise ?_ fun {p q} hpq hqp => hpq ?_
    · exact (List.pairwise_map.mpr hfiles).filter _
    · have hswap : p.cmp q = (q.cmp p).swap := Std.OrientedCmp.eq_swap
      rwa [hswap, Ordering.swap_eq_eq]
  have hsorted : (discover tree globs).Pairwise fun p q => (p.cmp q).isLE :=
    List.pairwise_mergeSort Path.cmp_trans Path.cmp_total _
  refine (hsorted.and hdistinct).imp ?_
  intro p q ⟨hle, hne⟩
  cases h : p.cmp q with
  | lt => rfl
  | eq => exact absurd h hne
  | gt => simp [h] at hle

end Discovery

end Crosslink
