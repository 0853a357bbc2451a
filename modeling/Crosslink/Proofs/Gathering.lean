import Mathlib.Tactic.Ring
import Crosslink.Scan
import Crosslink.Proofs.Aliases
import Crosslink.Proofs.Searching
import Crosslink.Proofs.Wildcards

/-!
# Production files

A scan looks for production code with one pattern for each production directory: the directory as it
is written, and behind it `**` and `*.php`. So a directory is searched by its name only when no
character of the name means something in a pattern (`isPlain`). Then the pattern is read as the
characters of the directory one after the other, and what it finds is the code under the directory.
A name such as `src[1]/` finds other files than its own, or none.

Whether a path begins with a directory is a matter of characters, while patterns go by bytes; that
the bytes of one character never begin those of another is what joins the two.

## Main statements

§1 Directories as patterns
§2 The bytes of a text
§3 What a directory's pattern matches
§4 How large it may be
§5 The files gathered: `Scan.productionFiles_exact`, `Scan.productionFiles_misses`
-/

namespace Crosslink

namespace Glob

variable {t root rest path : Text} {fuel : Nat} {r : Reading} {es : List Element}
  {piece : List UInt8}

/-! ## §1 Directories as patterns -/

/-- The characters that have a meaning in a pattern wherever they stand. -/
def isSpecial (c : Char) : Bool := ("*?[\x7b\x7d\\" : Text).contains c

/-- True for a directory in normal form that a pattern can hold as it is written. -/
def isPlain (root : Text) : Bool :=
  (root = [] || root.getLast? = some '/') && root.all fun c => !isSpecial c

theorem isPlain_iff : isPlain root = true ↔
    root = [] ∨ ∃ stem, root = stem ++ ['/'] ∧ ∀ c ∈ stem, isSpecial c = false := by
  simp only [isPlain, Bool.and_eq_true, Bool.or_eq_true, decide_eq_true_eq, List.all_eq_true,
    Bool.not_eq_true']
  constructor
  · rintro ⟨rfl | hlast, hplain⟩
    · exact .inl rfl
    · obtain ⟨stem, rfl⟩ := List.getLast?_eq_some_iff.mp hlast
      exact .inr ⟨stem, rfl, fun c hc => hplain c (List.mem_append_left _ hc)⟩
  · rintro (rfl | ⟨stem, rfl, hplain⟩)
    · exact ⟨.inl rfl, by simp⟩
    · refine ⟨.inr (by simp), fun c hc => ?_⟩
      rcases List.mem_append.mp hc with hc | hc
      · exact hplain c hc
      · rw [List.mem_singleton.mp hc]
        rfl

/-- The elements that stand for a text. -/
def literals (t : Text) : List Element := t.map fun c => .atom (.literal c)

/-- The pattern for the code in a directory. -/
def codeIn (root : Text) : Glob where
  elements := (if root = [] then [.atom .leading] else literals root.dropLast ++ [.atom .between])
    ++ .atom .star :: literals ".php"

theorem codeIn_append_slash (stem : Text) :
    (codeIn (stem ++ ['/'])).elements =
      literals stem ++ .atom .between :: .atom .star :: literals ".php" := by
  simp [codeIn]

/-- A character that is not special is read as itself. -/
theorem readFrom_literal {c : Char} (hc : isSpecial c = false) (hr : r.frames = []) :
    readFrom (fuel + 1) r (c :: rest) =
      readFrom fuel ⟨.atom (.literal c) :: r.elements, [], some c⟩ rest := by
  simp only [isSpecial, List.contains_eq_mem, decide_eq_false_iff_not] at hc
  have hne : ∀ d ∈ ("*?[\x7b\x7d\\" : Text), c ≠ d := fun d hd heq => hc (heq ▸ hd)
  have hquestion := hne '?' (by simp)
  have hstar := hne '*' (by simp)
  have hclass := hne '[' (by simp)
  have hopen := hne '\x7b' (by simp)
  have hclose := hne '\x7d' (by simp)
  have hescape := hne '\\' (by simp)
  simp [readFrom, hquestion, hstar, hclass, hopen, hclose, hescape, hr, Reading.push]

/-- A text without special characters is read as its characters. -/
theorem readFrom_plain (ht : ∀ c ∈ t, isSpecial c = false) (hr : r.frames = []) (fuel : Nat)
    (rest : Text) :
    readFrom (fuel + t.length) r (t ++ rest) =
      readFrom fuel ⟨(literals t).reverse ++ r.elements, [], t.getLast?.or r.last⟩ rest := by
  induction t generalizing r with
  | nil =>
    obtain ⟨elements, frames, last⟩ := r
    obtain rfl : frames = [] := hr
    simp [literals]
  | cons c t ih =>
    obtain ⟨hc, ht⟩ := List.forall_mem_cons.mp ht
    rw [List.length_cons, ← Nat.add_assoc, List.cons_append, readFrom_literal hc hr, ih ht rfl]
    congr 2
    · simp [literals]
    · cases hlast : t.getLast? <;> simp [List.getLast?_cons, hlast]

/-- The pattern made of a plain directory is the one for the code in it. -/
theorem parse_codeIn (h : isPlain root = true) : parse (root ++ "**/*.php") = .ok (codeIn root) := by
  rcases isPlain_iff.mp h with rfl | ⟨stem, rfl, hstem⟩
  · rfl
  · have hroot : ∀ c ∈ stem ++ ['/'], isSpecial c = false :=
      List.forall_mem_append.mpr ⟨hstem, List.forall_mem_singleton.mpr rfl⟩
    have hread : readFrom ((stem ++ ['/'] ++ ("**/*.php" : Text)).length + 1) {}
        (stem ++ ['/'] ++ ("**/*.php" : Text)) = .ok (codeIn (stem ++ ['/'])).elements := by
      have hfuel : (stem ++ ['/'] ++ ("**/*.php" : Text)).length + 1 =
          9 + (stem ++ ['/']).length := by
        simp
        omega
      rw [hfuel, readFrom_plain hroot rfl, codeIn_append_slash]
      have hlast : (stem ++ ['/']).getLast?.or ({} : Reading).last = some '/' := by simp
      have helements : (literals (stem ++ ['/'])).reverse ++ ({} : Reading).elements =
          .atom (.literal '/') :: (literals stem).reverse := by simp [literals]
      rw [hlast, helements]
      simp [readFrom, Reading.doubleStar, Reading.push, literals]
    rw [parse, hread]
    simp only [bind, Except.bind]
    split
    · rename_i hleading
      rw [codeIn_append_slash] at hleading
      cases stem <;> cases hleading
    · rfl

/-! ## §2 The bytes of a text -/

/-- The bytes of a character do not begin those of another one. -/
theorem utf8EncodeChar_append_inj {c d : Char} {x y : List UInt8}
    (h : String.utf8EncodeChar c ++ x = String.utf8EncodeChar d ++ y) : c = d ∧ x = y := by
  have hdecode : ∀ (c : Char) (x : List UInt8),
      (String.utf8EncodeChar c ++ x).toByteArray.utf8DecodeChar? 0 = some c := fun c x => by
    rw [List.toByteArray_append, ByteArray.utf8DecodeChar?_utf8EncodeChar_append]
  obtain rfl : c = d := Option.some.inj ((hdecode c x).symm.trans (h ▸ hdecode d y))
  exact ⟨rfl, List.append_cancel_left h⟩

theorem utf8_append (a b : Text) : Digest.utf8 (a ++ b) = Digest.utf8 a ++ Digest.utf8 b :=
  List.flatMap_append

theorem utf8_cons (c : Char) (t : Text) :
    Digest.utf8 (c :: t) = String.utf8EncodeChar c ++ Digest.utf8 t := rfl

/-- A text begins with another one when its bytes do. -/
theorem prefix_of_utf8 {a b : Text} (h : Digest.utf8 a <+: Digest.utf8 b) : a <+: b := by
  induction a generalizing b with
  | nil => exact List.nil_prefix
  | cons c a ih =>
    obtain ⟨rest, hrest⟩ := h
    cases b with
    | nil =>
      have hne := String.utf8EncodeChar_ne_nil (c := c)
      simp [Digest.utf8, hne] at hrest
    | cons d b =>
      rw [utf8_cons, utf8_cons, List.append_assoc] at hrest
      obtain ⟨hc, hrest⟩ := utf8EncodeChar_append_inj hrest
      exact List.cons_prefix_cons.mpr ⟨hc, ih ⟨rest, hrest⟩⟩

theorem suffix_utf8 {a b : Text} (h : a <:+ b) : Digest.utf8 a <:+ Digest.utf8 b := by
  obtain ⟨front, rfl⟩ := h
  rw [utf8_append]
  exact List.suffix_append _ _

/-! ## §3 What a directory's pattern matches -/

/-- The elements of a text stand for its bytes. -/
theorem matchesAll_literals :
    MatchesAll (literals t ++ es) piece ↔
      ∃ rest, piece = Digest.utf8 t ++ rest ∧ MatchesAll es rest := by
  induction t generalizing piece with
  | nil => simp [literals, Digest.utf8]
  | cons c t ih =>
    rw [literals, List.map_cons, List.cons_append, MatchesAll, ← literals]
    simp only [Element.Matches, Atom.Matches, ih]
    constructor
    · rintro ⟨_, _, rfl, rfl, rest, rfl, h⟩
      exact ⟨rest, by rw [utf8_cons, List.append_assoc], h⟩
    · rintro ⟨rest, rfl, h⟩
      exact ⟨_, _, by rw [utf8_cons, List.append_assoc], rfl, rest, rfl, h⟩

/-- A star and a text stand for everything that ends in the text. -/
theorem matchesAll_star_literals :
    MatchesAll (.atom .star :: literals t) piece ↔ Digest.utf8 t <:+ piece := by
  have hend : ∀ back, MatchesAll (literals t) back ↔ back = Digest.utf8 t := by
    intro back
    rw [← List.append_nil (literals t), matchesAll_literals]
    simp [MatchesAll]
  rw [MatchesAll]
  simp only [Element.Matches, Atom.Matches, hend, true_and]
  constructor
  · rintro ⟨front, _, rfl, rfl⟩
    exact List.suffix_append front _
  · rintro ⟨front, rfl⟩
    exact ⟨front, _, rfl, rfl⟩

/-- What ends in a piece without a slash ends in it behind any of its slashes. -/
theorem suffix_of_suffix_append_slash {stem : Text} (h : t <:+ stem ++ '/' :: rest) (ht : '/' ∉ t) :
    t <:+ rest := by
  rcases List.suffix_or_suffix_of_suffix h (List.suffix_append stem ('/' :: rest)) with h | h
  · rcases List.suffix_cons_iff.mp h with rfl | h
    · simp at ht
    · exact h
  · exact absurd (h.subset (by simp)) ht

/-- A path that ends in an extension does not end in two dots. -/
theorem lastSegment_ne_dots (hphp : (".php" : Text) <:+ path) :
    Text.lastSegment "/" path ≠ ".." := by
  have hlast : path.getLast? = some 'p' := by
    obtain ⟨front, rfl⟩ := hphp
    simp
  intro hdots
  obtain ⟨front, rfl⟩ : ("..": Text) <:+ path := by
    rw [Text.lastSegment] at hdots
    split at hdots
    · rename_i l r hsplit
      obtain ⟨rfl, -⟩ := Text.splitLast_eq_some hsplit
      rw [← hdots]
      exact (List.suffix_cons '/' r).trans (List.suffix_append l _)
    · exact hdots ▸ List.suffix_rfl
  simp at hlast

/-- Of the paths that end in `.php`, the pattern for the code in a directory matches those that
begin with the directory. -/
theorem isMatch_codeIn (hroot : isPlain root = true) (hphp : (".php" : Text) <:+ path) :
    (codeIn root).isMatch path = true ↔ root <+: path := by
  rw [isMatch_iff, and_iff_left fun h => lastSegment_ne_dots hphp h.2]
  rcases isPlain_iff.mp hroot with rfl | ⟨stem, rfl, -⟩
  · refine iff_of_true ?_ List.nil_prefix
    exact ⟨[], _, rfl, .inl rfl, matchesAll_star_literals.mpr (suffix_utf8 hphp)⟩
  · rw [codeIn_append_slash, matchesAll_literals]
    constructor
    · rintro ⟨_, hpath, front, back, rfl, hfront, -⟩
      obtain ⟨inner, rfl⟩ : ∃ inner, front = slash :: inner := by
        rcases hfront with rfl | ⟨directories, rfl⟩
        · exact ⟨[], rfl⟩
        · exact ⟨_, rfl⟩
      refine prefix_of_utf8 ⟨inner ++ back, ?_⟩
      rw [hpath, utf8_append, List.append_assoc]
      rfl
    · rintro ⟨rest, rfl⟩
      have hrest : (".php" : Text) <:+ rest := by
        rw [List.append_assoc] at hphp
        exact suffix_of_suffix_append_slash hphp (by simp)
      refine ⟨slash :: Digest.utf8 rest, ?_, [slash], _, rfl, .inl rfl,
        matchesAll_star_literals.mpr (suffix_utf8 hrest)⟩
      rw [List.append_assoc, utf8_append]
      rfl

/-! ## §4 How large it may be -/

theorem extentBehind_literals (before : Extent) :
    extentBehind before (literals t ++ es) =
      extentBehind ⟨before.pieces + Text.width t, before.depth,
        before.room + stateRoom * Text.width t⟩ es := by
  induction t generalizing before with
  | nil => rfl
  | cons c t ih =>
    rw [literals, List.map_cons, List.cons_append, extentBehind, ← literals, ih]
    congr 2
    · simp [Extent.beside, Element.extent, Atom.extent, Nat.add_assoc]
    · simp [Extent.beside, Element.extent, Atom.extent]
    · simp only [Extent.beside, Element.extent, Atom.extent, Text.width_cons]
      ring

/-- A directory has fewer bytes than this when the pattern for the code in it can be used. -/
def rootLimit : Nat := 327659

theorem extent_codeIn (stem : Text) :
    (codeIn (stem ++ ['/'])).extent =
      ⟨Text.width stem + 9, 4, stateRoom * Text.width stem + 680⟩ := by
  have hdot : ('.' : Char).utf8Size = 1 := rfl
  have hp : ('p' : Char).utf8Size = 1 := rfl
  have hh : ('h' : Char).utf8Size = 1 := rfl
  rw [extent, codeIn_append_slash, extentBehind_literals]
  simp [extentBehind, literals, Extent.beside, Extent.group, Extent.repeated, Extent.levels,
    Element.extent, Atom.extent, Extent.byte, Extent.anyByte, stateRoom, rangeRoom, forkRoom,
    hdot, hp, hh]

theorem form_codeIn_append_slash (stem : Text) : (codeIn (stem ++ ['/'])).form = .extension := by
  rw [form, codeIn_append_slash]
  cases stem <;>
    simp [formOf, literals, endLiterals, isOpenEnded, Element.literal?]

/-- The patterns for the code in plain directories can be used together. -/
theorem setDefect?_codeIn {roots : List Text}
    (hroots : ∀ root ∈ roots, isPlain root = true ∧ Text.width root < rootLimit) :
    setDefect? (roots.map codeIn) = none := by
  -- A pattern of a root is one for a file name, or it asks for an extension and is not too large.
  have heach : ∀ g ∈ roots.map codeIn, g.form = .fileName ∨
      (g.form = .extension ∧ limitDefect? [g.extent] = none) := by
    intro g hg
    obtain ⟨root, hroot, rfl⟩ := List.mem_map.mp hg
    obtain ⟨hplain, hwidth⟩ := hroots root hroot
    rcases isPlain_iff.mp hplain with rfl | ⟨stem, rfl, -⟩
    · exact .inl (by decide)
    · have hslash : ('/' : Char).utf8Size = 1 := rfl
      rw [Text.width_append, Text.width_cons, hslash] at hwidth
      refine .inr ⟨form_codeIn_append_slash stem, ?_⟩
      simp only [rootLimit, Text.width_nil] at hwidth
      simp [limitDefect?, extent_codeIn, Extent.levels, Extent.group, depthLimit, roomLimit,
        stateRoom]
      omega
  have halone : ((roots.map codeIn).filter (·.form = .extension)).findSome? (fun g =>
      (limitDefect? [g.extent]).map fun d => SetDefect.mk (some g.expression) d) = none := by
    rw [List.findSome?_eq_none_iff]
    intro g hg
    obtain ⟨hg, hform⟩ := List.mem_filter.mp hg
    rcases heach g hg with h | ⟨-, h⟩
    · simp [h] at hform
    · rw [h]
      rfl
  have hgeneral : (roots.map codeIn).filter (·.form = .general) = [] := by
    rw [List.filter_eq_nil_iff]
    intro g hg
    rcases heach g hg with h | ⟨h, -⟩ <;> simp [h]
  simp only [setDefect?, halone, hgeneral]
  decide

end Glob

/-! ## §5 The files gathered -/

/-- The last piece is the end of the text put together. -/
theorem Text.suffix_join {sep last : Text} {pieces : List Text} (h : pieces.getLast? = some last) :
    last <:+ join sep pieces := by
  induction pieces with
  | nil => cases h
  | cons p rest ih =>
    cases rest with
    | nil =>
      obtain rfl : p = last := by simpa using h
      simp [join]
    | cons q rest =>
      have hjoin : join sep (p :: q :: rest) = p ++ sep ++ join sep (q :: rest) := by simp [join]
      rw [hjoin]
      exact (ih (by simpa using h)).trans (List.suffix_append _ _)

/-- The path of a file with the extension `php` ends in `.php`. -/
theorem suffix_of_extension {names : List Text} (hnames : ∀ n ∈ names, FileTree.isName n = true)
    (h : (Discovery.pathOf names).extension = some ("php" : Text)) :
    (".php" : Text) <:+ (Discovery.pathOf names).text := by
  obtain ⟨name, hname, hext⟩ := Option.bind_eq_some_iff.mp h
  obtain ⟨⟨stem, ext⟩, hsplit, hkept⟩ := Option.bind_eq_some_iff.mp hext
  have hlast : names.getLast? = some name := by
    rw [Path.fileName, components_pathOf hnames, List.getLast?_map] at hname
    cases hnames : names.getLast? <;> simp_all [Component.name?]
  obtain rfl : ext = ("php" : Text) := by
    by_cases hstem : stem = [] <;> simp_all
  obtain ⟨rfl, -⟩ := Text.splitLast_eq_some hsplit
  exact (List.suffix_append stem _).trans (Text.suffix_join hlast)

namespace Scan

open FileTree Discovery

variable {a : Autoload} {d : Directory} {globs : List Glob} {p : Path}

/-- A production file is a file of the project with the extension `php` that lies in a production
directory, has no excluded name on the way to it, and lies in no test directory. To a test directory
its path is compared with slashes for backslashes. -/
structure IsProductionFile (a : Autoload) (d : Directory) (p : Path) : Prop where
  file : ∃ names content, p = pathOf names ∧ d.content.contentAt names = .ok (some content)
  extension : p.extension = some ("php" : Text)
  inside : ∃ root ∈ a.productionRoots, root <+: p.text
  kept : isExcluded p = false
  outside : ∀ root ∈ a.testRoots, ¬ root <+: Text.replace '\\' "/" p.text

theorem liesIn_eq_false_iff {directories : List Text} :
    liesIn directories p = false ↔
      ∀ root ∈ directories, ¬ root <+: Text.replace '\\' "/" p.text := by
  simp [liesIn, List.any_eq_false]

/-- A file that the patterns of the production directories find is kept for its extension, and when
it lies in no test directory. -/
theorem mem_discover_filter (htree : d.tree.isProper = true) :
    p ∈ (discover d.content globs).filter
        (fun file => !liesIn a.testRoots file && Framework.readsFile file) ↔
      (∃ names content, p = pathOf names ∧ d.content.contentAt names = .ok (some content)) ∧
        p.extension = some ("php" : Text) ∧ Glob.anyMatch globs p.text = true ∧
        isExcluded p = false ∧
        ∀ root ∈ a.testRoots, ¬ root <+: Text.replace '\\' "/" p.text := by
  have hcontent : d.content.isProper = true := Directory.isProper_reachable htree
  rw [List.mem_filter, mem_discover hcontent, Bool.and_eq_true, Bool.not_eq_true',
    liesIn_eq_false_iff, Framework.readsFile, beq_iff_eq]
  have hkept : ∀ {names : List Text} {content : Content},
      d.content.contentAt names = .ok (some content) →
        (isExcluded (pathOf names) = false ↔ ∀ n ∈ names, isExcludedName n = false) := by
    intro names content hfile
    rw [isExcluded, names_pathOf (isName_of_contentAt hcontent hfile), List.any_eq_false]
    simp only [Bool.not_eq_true]
  constructor
  · rintro ⟨⟨names, content, rfl, hfile, hnames, hmatch⟩, hout, hext⟩
    exact ⟨⟨names, content, rfl, hfile⟩, hext, hmatch, (hkept hfile).mpr hnames, hout⟩
  · rintro ⟨⟨names, content, rfl, hfile⟩, hext, hmatch, hnames, hout⟩
    exact ⟨⟨names, content, rfl, hfile, (hkept hfile).mp hnames, hmatch⟩, hout, hext⟩

/-- The patterns of plain production directories can be used, and each is the one for the code in its
directory. -/
theorem patterns_productionRoots
    (hroots : ∀ root ∈ a.productionRoots,
      Glob.isPlain root = true ∧ Text.width root < Glob.rootLimit) :
    patterns (a.productionRoots.map (· ++ "**/*.php")) =
      .ok (a.productionRoots.map Glob.codeIn) := by
  refine patterns_eq_ok_iff.mpr ⟨Glob.parseAll_eq_ok_iff.mpr ?_, Glob.setDefect?_codeIn hroots⟩
  rw [List.forall₂_map_left_iff, List.forall₂_map_right_iff, List.forall₂_same]
  exact fun root hroot => Glob.parse_codeIn (hroots root hroot).1

/-- When the names of the production directories mean nothing special in a pattern, a scan gathers
all production files, each once and in the order of their paths. -/
theorem productionFiles_exact (htree : d.tree.isProper = true)
    (hroots : ∀ root ∈ a.productionRoots,
      Glob.isPlain root = true ∧ Text.width root < Glob.rootLimit) :
    ∃ files, productionFiles a d = .ok files ∧
      files.Pairwise (fun p q => p.cmp q = .lt) ∧ ∀ p, p ∈ files ↔ IsProductionFile a d p := by
  have hcontent : d.content.isProper = true := Directory.isProper_reachable htree
  refine ⟨_, by rw [productionFiles, patterns_productionRoots hroots]; rfl,
    (sorted_discover hcontent).filter _, fun p => ?_⟩
  -- The extension tells how the path ends, so that the pattern only asks how it begins.
  have hmatch : ∀ {names : List Text} {content : Content},
      d.content.contentAt names = .ok (some content) →
      (pathOf names).extension = some ("php" : Text) →
        (Glob.anyMatch (a.productionRoots.map Glob.codeIn) (pathOf names).text = true ↔
          ∃ root ∈ a.productionRoots, root <+: (pathOf names).text) := by
    intro names content hfile hext
    have hphp := suffix_of_extension (isName_of_contentAt hcontent hfile) hext
    simp only [Glob.anyMatch, List.any_map, List.any_eq_true, Function.comp_apply]
    exact exists_congr fun root => and_congr_right fun hroot =>
      Glob.isMatch_codeIn (hroots root hroot).1 hphp
  rw [mem_discover_filter htree]
  constructor
  · rintro ⟨⟨names, content, rfl, hfile⟩, hext, hin, hkept, hout⟩
    exact ⟨⟨names, content, rfl, hfile⟩, hext, (hmatch hfile hext).mp hin, hkept, hout⟩
  · rintro ⟨⟨names, content, rfl, hfile⟩, hext, hin, hkept, hout⟩
    exact ⟨⟨names, content, rfl, hfile⟩, hext, (hmatch hfile hext).mpr hin, hkept, hout⟩

/-- A project with tests among its code, and with code of others. -/
def nestedTests : Directory where
  tree := .folder "src" (.file "A.php" (.text "<?php\n")
    (.folder "tests" (.file "ATest.php" (.text "<?php\n") .nothing)
      (.folder "vendor" (.file "B.php" (.text "<?php\n") .nothing) .nothing))) .nothing

/-- Its mappings: the project itself, and a directory in it. -/
def nestedMappings : Autoload where
  tests := [.ofTexts "src/tests" "Tests"]
  production := [.ofTexts "." "", .ofTexts "./src" "App"]

/-- The two directories overlap, and the tests lie in both. -/
theorem productionFiles_exact_nestedTests :
    nestedTests.tree.isProper = true ∧ nestedMappings.productionRoots = ["", "src/"] ∧
    (∀ root ∈ nestedMappings.productionRoots,
      Glob.isPlain root = true ∧ Text.width root < Glob.rootLimit) ∧
    ∃ files, productionFiles nestedMappings nestedTests = .ok files ∧
      files.Pairwise (fun p q => p.cmp q = .lt) ∧ Path.mk "src/A.php" ∈ files ∧
      ∀ p, p ∈ files ↔ IsProductionFile nestedMappings nestedTests p := by
  have htree : nestedTests.tree.isProper = true := by decide
  have hsorted : (nestedMappings.production.map Mapping.directory).mergeSort
      (fun x y => (compare x y).isLE) = ["", "src/"] :=
    List.mergeSort_of_pairwise (by decide +kernel)
  have hnames : nestedMappings.productionRoots = ["", "src/"] := by
    rw [Autoload.productionRoots, hsorted]
    decide
  have hroots : ∀ root ∈ nestedMappings.productionRoots,
      Glob.isPlain root = true ∧ Text.width root < Glob.rootLimit := by
    rw [hnames]
    decide
  obtain ⟨files, hfiles, horder, hmem⟩ := productionFiles_exact htree hroots
  refine ⟨htree, hnames, hroots, files, hfiles, horder, (hmem _).mpr ?_, hmem⟩
  have hfile : ∃ names content, Path.mk "src/A.php" = pathOf names ∧
      nestedTests.content.contentAt names = .ok (some content) :=
    ⟨["src", "A.php"], .text "<?php\n", by decide, by decide⟩
  exact ⟨hfile, by decide, ⟨"", by rw [hnames]; simp, List.nil_prefix⟩, by decide, by decide⟩

/-- A project with its code in a directory whose name is a class of characters in a pattern. -/
def bracketed : Directory where
  tree := .folder "src[1]" (.file "X.php" (.text "<?php\n") .nothing) .nothing

/-- The mapping of that directory. -/
def bracketedMapping : Autoload where
  production := [.ofTexts "src[1]" "App"]

/-- A directory whose name is taken for a pattern is not searched. -/
theorem productionFiles_misses :
    IsProductionFile bracketedMapping bracketed "src[1]/X.php" ∧
      productionFiles bracketedMapping bracketed = .ok [] := by
  have hfile : ∃ names content, Path.mk "src[1]/X.php" = pathOf names ∧
      bracketed.content.contentAt names = .ok (some content) :=
    ⟨["src[1]", "X.php"], .text "<?php\n", by decide, by decide⟩
  exact ⟨⟨hfile, by decide, by decide +kernel, by decide, by decide +kernel⟩, by decide +kernel⟩

end Scan

end Crosslink
