import Mathlib.Data.List.Forall2
import Crosslink.Proofs.Trees

/-!
# Pruned walks

The walk for files does not look into a directory with a refused name. What it finds is nonetheless
what a look at every file of the tree would find: a name that is refused is refused to all that lies
below it, so that to cut off the branch and to leave out its files is the same. The name of the
directory that the walk starts from is not among these names. Where that directory lies can only be
felt by its length, when a path gets too long for the operating system.

## Main statements

§1 Patterns used together
§2 The walk as a filter
§3 Discovery: `Discovery.discover_exact`
-/

namespace Crosslink

/-! ## §1 Patterns used together -/

/-- To do something with each of several things succeeds when it does so with every one. -/
theorem mapM_eq_ok_iff {α β ε : Type} {f : α → Except ε β} {xs : List α} {ys : List β} :
    xs.mapM f = .ok ys ↔ List.Forall₂ (fun x y => f x = .ok y) xs ys := by
  induction xs generalizing ys with
  | nil => cases ys <;> simp [pure, Except.pure]
  | cons x xs ih =>
    rw [List.mapM_cons]
    cases hx : f x with
    | error e => cases ys <;> simp [hx, bind, Except.bind]
    | ok y =>
      cases hxs : xs.mapM f with
      | error e => cases ys <;> simp [hx, hxs, ← ih, bind, Except.bind]
      | ok ys' => cases ys <;> simp [hx, hxs, ← ih, bind, Except.bind, pure, Except.pure]

namespace Glob

variable {texts : List Text} {globs : List Glob} {path : Text}

/-- True when one of some patterns matches the path. A text that is no pattern matches nothing. -/
def matchesSome (texts : List Text) (path : Text) : Bool :=
  texts.any fun t => (parse t).toOption.any (·.isMatch path)

/-- Several patterns are read by reading each of them. -/
theorem parseAll_eq_ok_iff :
    parseAll texts = .ok globs ↔ List.Forall₂ (fun t g => parse t = .ok g) texts globs := by
  have hread : ∀ {t : Text} {g : Glob},
      ((parse t).mapError fun d => (t, d)) = .ok g ↔ parse t = .ok g := by
    intro t g
    cases parse t <;> simp [Except.mapError]
  rw [parseAll, mapM_eq_ok_iff]
  simp only [hread]

/-- A path is matched by patterns as they have been read when it is matched by one of the texts. -/
theorem anyMatch_eq (h : parseAll texts = .ok globs) :
    anyMatch globs path = matchesSome texts path := by
  induction parseAll_eq_ok_iff.mp h with
  | nil => rfl
  | cons hread hrest ih =>
    have hih := ih (parseAll_eq_ok_iff.mpr hrest)
    simp only [anyMatch, matchesSome] at hih ⊢
    rw [List.any_cons, List.any_cons, hread, hih]
    rfl

end Glob

/-- Patterns can be used together when each can be read and they are not too much as a set. -/
theorem Discovery.patterns_eq_ok_iff {texts : List Text} {globs : List Glob} :
    patterns texts = .ok globs ↔ Glob.parseAll texts = .ok globs ∧ Glob.setDefect? globs = none := by
  rw [patterns]
  cases Glob.parseAll texts with
  | error e => simp [Except.mapError, bind, Except.bind]
  | ok gs =>
    simp only [Except.mapError, bind, Except.bind]
    cases hset : Glob.setDefect? gs with
    | some d =>
      simp only [throw, throwThe, MonadExceptOf.throw]
      refine iff_of_false nofun ?_
      rintro ⟨⟨⟩, hnone⟩
      simp [hset] at hnone
    | none =>
      simp only [pure, Except.pure, Except.ok.injEq]
      exact ⟨fun h => ⟨h, h ▸ hset⟩, And.left⟩

/-! ## §2 The walk as a filter -/

namespace FileTree

variable {refused : Text → Bool} {above names : List Text} {content : Content} {tree : FileTree}

/-- The names that lead to where the walk is stand in front of what it lists. -/
theorem filesUnder_above (refused : Text → Bool) (above : List Text) (tree : FileTree) :
    filesUnder refused above tree =
      (filesUnder refused [] tree).map fun f => (above ++ f.1, f.2) := by
  induction tree generalizing above with
  | nothing => rfl
  | file n content others ih =>
    rw [filesUnder, filesUnder, List.map_append, ih above]
    cases refused n <;> rfl
  | folder n inner others ihInner ih =>
    rw [filesUnder, filesUnder, List.map_append, ih above, ihInner (above ++ [n]),
      ihInner ([] ++ [n])]
    cases refused n <;> simp [Function.comp_def]

/-- What is listed of a directory with a name is what is listed in it, the name in front. -/
theorem filesUnder_singleton (refused : Text → Bool) (n : Text) (tree : FileTree) :
    filesUnder refused ([] ++ [n]) tree =
      (filesUnder refused [] tree).map fun f => (n :: f.1, f.2) :=
  filesUnder_above refused [n] tree

/-- A walk that does not look into what is refused lists the files of the whole tree to which no
refused name leads. -/
theorem filesUnder_eq_filter (refused : Text → Bool) (tree : FileTree) :
    filesUnder refused [] tree = tree.files.filter fun f => !f.1.any refused := by
  induction tree with
  | nothing => rfl
  | file n content others ih =>
    rw [files] at ih ⊢
    rw [filesUnder, filesUnder, List.filter_append, ← ih]
    cases h : refused n <;> simp [h]
  | folder n inner others ihInner ih =>
    rw [files] at ih ihInner ⊢
    rw [filesUnder, filesUnder, List.filter_append, ← ih, filesUnder_singleton,
      filesUnder_singleton, ihInner, if_neg Bool.false_ne_true, List.filter_map]
    cases h : refused n <;> simp [h, Function.comp_def]

/-- The files of a proper tree are what names lead to. -/
theorem mem_files (htree : tree.isProper = true) :
    (names, content) ∈ tree.files ↔ tree.contentAt names = .ok (some content) := by
  rw [files, mem_filesUnder htree]
  simp

end FileTree

/-! ## §3 Discovery -/

namespace Discovery

open FileTree

variable {texts : List Text} {globs : List Glob} {tree : FileTree}

/-- The paths of all files of a tree. -/
def allPaths (tree : FileTree) : List Path := tree.files.map fun f => pathOf f.1

/-- What the walk finds is what is found by a look at all files. -/
theorem discover_eq (hglobs : patterns texts = .ok globs) (htree : tree.isProper = true) :
    discover tree globs = sortPaths ((allPaths tree).filter fun p =>
      Glob.matchesSome texts p.text && !isExcluded p) := by
  -- Whether a file is left out can be told by its path as well as by its names.
  have hexcluded : ∀ f ∈ tree.files, isExcluded (pathOf f.1) = f.1.any isExcludedName := by
    rintro ⟨names, content⟩ hmem
    rw [isExcluded, names_pathOf (isName_of_contentAt htree ((mem_files htree).mp hmem))]
  have hmatch : Glob.anyMatch globs = Glob.matchesSome texts :=
    funext fun path => Glob.anyMatch_eq (patterns_eq_ok_iff.mp hglobs).1
  rw [discover, filesUnder_eq_filter, allPaths, hmatch, List.filter_map, List.filter_map,
    List.filter_filter]
  congr 2
  exact List.filter_congr fun f hf => by
    simp only [Function.comp_apply, hexcluded f hf]

/-- A walk from a directory finds what can be reached of what there is to be found. -/
theorem discover_content (globs : List Glob) (root : Path) (htree : tree.isProper = true) :
    discover (Directory.content ⟨root, tree⟩) globs =
      (discover tree globs).filter fun p =>
        Directory.isWithinReach (Text.width (root.join ⟨[]⟩).text) p.names := by
  have hcontent : (Directory.content ⟨root, tree⟩).isProper = true :=
    Directory.isProper_reachable htree
  refine (sorted_discover hcontent).eq_of_mem_iff ((sorted_discover htree).filter _) fun p => ?_
  rw [List.mem_filter, mem_discover htree, mem_discover hcontent]
  simp only [Directory.content, Directory.contentAt_reachable]
  constructor
  · rintro ⟨names, content, rfl, ⟨hreach, hfile⟩, hkept, hmatch⟩
    refine ⟨⟨names, content, rfl, hfile, hkept, hmatch⟩, ?_⟩
    rwa [names_pathOf (isName_of_contentAt htree hfile)]
  · rintro ⟨⟨names, content, rfl, hfile, hkept, hmatch⟩, hreach⟩
    rw [names_pathOf (isName_of_contentAt htree hfile)] at hreach
    exact ⟨names, content, rfl, ⟨hreach, hfile⟩, hkept, hmatch⟩

/-- The walk that does not look into excluded directories finds, of all files of the tree, those
that some pattern matches and whose path has no excluded name in it: sorted by their components, and
each once. From any directory the same is found, whatever it is called. Only files in directories
whose path is too long for the operating system cannot be reached. -/
theorem discover_exact (hglobs : patterns texts = .ok globs) (htree : tree.isProper = true) :
    discover tree globs = sortPaths ((allPaths tree).filter fun p =>
      Glob.matchesSome texts p.text && !isExcluded p) ∧
    (discover tree globs).Pairwise (fun p q => p.cmp q = .lt) ∧
    ∀ root : Path, discover (Directory.content ⟨root, tree⟩) globs =
      (discover tree globs).filter fun p =>
        Directory.isWithinReach (Text.width (root.join ⟨[]⟩).text) p.names :=
  ⟨discover_eq hglobs htree, sorted_discover htree, fun root => discover_content globs root htree⟩

/-- A project with code of its own and code of others. -/
def mixedTree : FileTree :=
  .folder "vendor" (.folder "src" (.file "B.php" (.text "<?php\n") .nothing) .nothing)
    (.folder "src" (.folder "target" (.file "C.php" (.text "<?php\n") .nothing)
      (.file "A.php" (.text "<?php\n") .nothing)) .nothing)

/-- What is found in a directory that itself has an excluded name. -/
theorem discover_exact_mixedTree :
    patterns ["src/**/*.php", "**/C.php"] = .ok
      [⟨("src" : Text).map (fun c => .atom (.literal c)) ++ [.atom .between, .atom .star]
        ++ (".php" : Text).map fun c => .atom (.literal c)⟩,
        ⟨.atom .leading :: ("C.php" : Text).map fun c => .atom (.literal c)⟩] ∧
    mixedTree.isProper = true ∧
    allPaths mixedTree = ["vendor/src/B.php", "src/target/C.php", "src/A.php"] ∧
    ∃ globs, discover mixedTree globs = ["src/A.php"] ∧
      discover (Directory.content ⟨"/vendor", mixedTree⟩) globs = ["src/A.php"] := by
  have hglobs : patterns ["src/**/*.php", "**/C.php"] = .ok
      [⟨("src" : Text).map (fun c => .atom (.literal c)) ++ [.atom .between, .atom .star]
        ++ (".php" : Text).map fun c => .atom (.literal c)⟩,
        ⟨.atom .leading :: ("C.php" : Text).map fun c => .atom (.literal c)⟩] :=
    patterns_eq_ok_iff.mpr ⟨rfl, by decide +kernel⟩
  have htree : mixedTree.isProper = true := by decide
  obtain ⟨hwalk, -, hroots⟩ := discover_exact hglobs htree
  have hfound : discover mixedTree _ = ["src/A.php"] := hwalk.trans (by decide +kernel)
  refine ⟨hglobs, htree, by decide, _, hfound, ?_⟩
  rw [hroots, hfound]
  decide

end Discovery

end Crosslink
