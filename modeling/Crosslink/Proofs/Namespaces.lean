import Crosslink.Autoload
import Crosslink.Proofs.Slices
import Crosslink.Proofs.Trees

/-!
# The deepest mapping

Mappings are compared as texts: one covers a directory when its own directory is how the text of that
one begins, and of those that do the longest text wins. What is meant are the names of directories.
Both come to the same, because the text of a directory in normal form ends every name with a slash:
such a text begins with another one exactly when the names begin with the names
(`directoryOf_prefix_iff`), it has as many slashes as there are names, and of two texts with which a
third begins the longer one has more names. So `tests/` does not cover `tests-extra/`, and no name is
ever cut in two.

* §1 The text of a directory and its names.
* §2 `names_of_ofTexts`: what a mapping is written of is the names of its directory.
* §3 `exists_deepest`: the mapping that is taken.
* §4 `namespaceOf_exact`: the namespace of a file.
-/

namespace Crosslink

/-! ## §1 The text of a directory -/

namespace Text

variable {sep : Char} {a b t : Text}

theorem segments_ne_nil (sep : Char) (t : Text) : segments sep t ≠ [] := by
  induction t with
  | nil => simp [segments]
  | cons c cs ih =>
    rw [segments]
    split
    · simp
    · cases h : segments sep cs with
      | nil => exact absurd h ih
      | cons s rest => simp

/-- A piece of a text holds no separator. -/
theorem not_mem_of_mem_segments (h : a ∈ segments sep t) : sep ∉ a := by
  induction t generalizing a with
  | nil =>
    obtain rfl : a = [] := by simpa [segments] using h
    simp
  | cons c cs ih =>
    rw [segments] at h
    split at h
    · rcases List.mem_cons.mp h with rfl | h
      · simp
      · exact ih h
    · rename_i hc
      cases hs : segments sep cs with
      | nil => exact absurd hs (segments_ne_nil sep cs)
      | cons s rest =>
        rw [hs] at h ih
        rcases List.mem_cons.mp h with rfl | h
        · intro hmem
          rcases List.mem_cons.mp hmem with rfl | hmem
          · exact hc rfl
          · exact ih List.mem_cons_self hmem
        · exact ih (List.mem_cons_of_mem s h)

/-- A separator at the end of a text begins an empty piece. -/
theorem segments_concat (sep : Char) (t : Text) : segments sep (t ++ [sep]) = segments sep t ++ [[]] := by
  induction t with
  | nil => simp [segments]
  | cons c cs ih =>
    rw [List.cons_append, segments, segments, ih]
    split
    · rfl
    · cases hs : segments sep cs with
      | nil => exact absurd hs (segments_ne_nil sep cs)
      | cons s rest => rfl

end Text

namespace Autoload

variable {names names' : List Text}

@[simp] theorem directoryOf_nil : directoryOf [] = [] := rfl

@[simp] theorem directoryOf_cons (n : Text) (names : List Text) :
    directoryOf (n :: names) = n ++ '/' :: directoryOf names := by
  simp [directoryOf]

theorem directoryOf_append (names names' : List Text) :
    directoryOf (names ++ names') = directoryOf names ++ directoryOf names' :=
  List.flatMap_append

/-- The pieces of a text lead to the directory that is written so. -/
theorem directoryOf_segments (t : Text) : directoryOf (Text.segments '/' t) = t ++ ['/'] := by
  induction t with
  | nil => rfl
  | cons c cs ih =>
    rw [Text.segments]
    split
    · rename_i hc
      rw [directoryOf_cons, ih, hc]
      rfl
    · cases hs : Text.segments '/' cs with
      | nil => exact absurd hs (Text.segments_ne_nil '/' cs)
      | cons s rest =>
        rw [hs, directoryOf_cons] at ih
        rw [directoryOf_cons, List.cons_append, ih]
        rfl

/-- The text of a directory begins with that of another one when its names begin with the names of
that one. -/
theorem directoryOf_prefix_iff (h : ∀ n ∈ names, '/' ∉ n) (h' : ∀ n ∈ names', '/' ∉ n) :
    directoryOf names <+: directoryOf names' ↔ names <+: names' := by
  -- A name is what stands before the first slash.
  have hname : ∀ {n : Text} (rest : Text), '/' ∉ n →
      (n ++ '/' :: rest).takeWhile (· ≠ '/') = n := by
    intro n rest hn
    have hne : ∀ c ∈ n, decide (c ≠ '/') = true := fun c hc =>
      decide_eq_true fun heq => hn (heq ▸ hc)
    rw [List.takeWhile_append_of_pos hne]
    simp
  induction names generalizing names' with
  | nil => simp
  | cons n names ih =>
    obtain ⟨hn, hnames⟩ := List.forall_mem_cons.mp h
    cases names' with
    | nil => simp
    | cons n' names' =>
      obtain ⟨hn', hnames'⟩ := List.forall_mem_cons.mp h'
      rw [directoryOf_cons, directoryOf_cons, List.cons_prefix_cons]
      constructor
      · rintro ⟨rest, hrest⟩
        obtain rfl : n = n' := by
          rw [← hname (directoryOf names ++ rest) hn, ← hname (directoryOf names') hn', ← hrest]
          simp
        refine ⟨rfl, (ih hnames hnames').mp ⟨rest, ?_⟩⟩
        simpa using hrest
      · rintro ⟨rfl, hprefix⟩
        obtain ⟨rest, hrest⟩ := (ih hnames hnames').mpr hprefix
        exact ⟨rest, by simp [hrest]⟩

theorem count_directoryOf (h : ∀ n ∈ names, '/' ∉ n) : (directoryOf names).count '/' = names.length := by
  induction names with
  | nil => rfl
  | cons n names ih =>
    obtain ⟨hn, hnames⟩ := List.forall_mem_cons.mp h
    rw [directoryOf_cons, List.count_append, List.count_cons_self, ih hnames,
      List.count_eq_zero.mpr hn, Nat.zero_add, List.length_cons]

/-- Of two directories that lead to a third one, that with more names has the longer text. -/
theorem width_directoryOf_lt_iff {below : List Text} (h : names <+: below) (h' : names' <+: below) :
    Text.width (directoryOf names) < Text.width (directoryOf names') ↔
      names.length < names'.length := by
  have hle : ∀ {xs ys : List Text}, xs <+: ys →
      Text.width (directoryOf xs) ≤ Text.width (directoryOf ys) := by
    rintro xs ys ⟨rest, rfl⟩
    rw [directoryOf_append, Text.width_append]
    exact Nat.le_add_right _ _
  constructor
  · intro hwidth
    by_contra hlength
    exact Nat.not_lt.mpr (hle (List.prefix_of_prefix_length_le h' h (Nat.le_of_not_lt hlength))) hwidth
  · intro hlength
    obtain ⟨rest, rfl⟩ := List.prefix_of_prefix_length_le h h' (Nat.le_of_lt hlength)
    cases rest with
    | nil => simp at hlength
    | cons n rest =>
      have hslash : 0 < Text.width ('/' :: directoryOf rest) := by
        rw [Text.width_cons]
        exact Nat.add_pos_left (Char.utf8Size_pos '/') _
      rw [directoryOf_append, directoryOf_cons, Text.width_append, Text.width_append]
      omega

end Autoload

/-! ## §2 Mappings -/

namespace Mapping

open Autoload

/-- The names of the directories that lead to the mapped one: the pieces of its directory before the
last slash. -/
def names (m : Mapping) : List Text := (Text.segments '/' m.directory).dropLast

variable {m : Mapping}

/-- A mapping is in normal form when its directory is the text of its names. -/
def IsNormal (m : Mapping) : Prop := m.directory = directoryOf m.names

theorem names_no_slash (m : Mapping) : ∀ n ∈ m.names, '/' ∉ n := fun _ hn =>
  Text.not_mem_of_mem_segments (List.dropLast_subset _ hn)

/-- A mapping is in normal form however its parts have been written. -/
theorem isNormal_ofTexts (directory ns : Text) : (ofTexts directory ns).IsNormal := by
  have hnormal : ∀ t : Text, t = [] ∨ (∃ bare, t = bare ++ ['/']) →
      t = directoryOf (Text.segments '/' t).dropLast := by
    rintro t (rfl | ⟨bare, rfl⟩)
    · rfl
    · rw [Text.segments_concat, List.dropLast_concat, directoryOf_segments]
  refine hnormal _ ?_
  rw [ofTexts, normalDirectory]
  dsimp only
  split
  · exact .inl rfl
  · exact .inr ⟨_, rfl⟩

variable (h : m.IsNormal)
include h

/-- A mapping covers a directory when the names that lead to it begin with the mapping's. -/
theorem IsNormal.covers_iff {below : List Text} (hbelow : ∀ n ∈ below, '/' ∉ n) :
    m.covers (directoryOf below) = true ↔ m.names <+: below := by
  rw [covers, h, List.isPrefixOf_iff_prefix]
  exact directoryOf_prefix_iff m.names_no_slash hbelow

theorem IsNormal.depth_eq : m.depth = m.names.length := by
  rw [depth, h]
  exact count_directoryOf m.names_no_slash

/-- Of two mappings that cover a directory, that with more names has the longer text. -/
theorem IsNormal.width_lt_iff {o : Mapping} (ho : o.IsNormal) {below : List Text}
    (hm : m.names <+: below) (hobelow : o.names <+: below) :
    Text.width m.directory < Text.width o.directory ↔ m.names.length < o.names.length := by
  rw [h, ho]
  exact width_directoryOf_lt_iff hm hobelow

end Mapping

/-! ## §3 The mapping that is taken -/

namespace Autoload

/-- The first of the deepest mappings that cover the directory to which names lead: none before it has
as many names, and none after it has more. -/
def IsDeepest (mappings : List Mapping) (below : List Text) (m : Mapping) : Prop :=
  ∃ before after, mappings = before ++ m :: after ∧ m.names <+: below ∧
    (∀ o ∈ before, o.names <+: below → o.names.length < m.names.length) ∧
    ∀ o ∈ after, o.names <+: below → o.names.length ≤ m.names.length

/-- What is kept is the first of the longest. -/
theorem foldl_deeper (m : Mapping) (rest : List Mapping) :
    ∃ before after, m :: rest = before ++ rest.foldl deeper m :: after ∧
      (∀ o ∈ before, Text.width o.directory < Text.width (rest.foldl deeper m).directory) ∧
      ∀ o ∈ after, Text.width o.directory ≤ Text.width (rest.foldl deeper m).directory := by
  induction rest generalizing m with
  | nil => exact ⟨[], [], rfl, by simp, by simp⟩
  | cons o rest ih =>
    rw [List.foldl_cons]
    obtain ⟨before, after, hsplit, hbefore, hafter⟩ := ih (deeper m o)
    by_cases hlonger : Text.width m.directory < Text.width o.directory
    · rw [deeper, if_pos hlonger] at hsplit hbefore hafter ⊢
      refine ⟨m :: before, after, by rw [hsplit]; rfl, ?_, hafter⟩
      refine List.forall_mem_cons.mpr ⟨Nat.lt_of_lt_of_le hlonger ?_, hbefore⟩
      have ho : o ∈ before ++ rest.foldl deeper o :: after := hsplit ▸ List.mem_cons_self
      rcases List.mem_append.mp ho with ho | ho
      · exact Nat.le_of_lt (hbefore o ho)
      · rcases List.mem_cons.mp ho with ho | ho
        · exact Nat.le_of_eq (congrArg (fun x : Mapping => Text.width x.directory) ho)
        · exact hafter o ho
    · rw [deeper, if_neg hlonger] at hsplit hbefore hafter ⊢
      cases before with
      | nil =>
        obtain ⟨hm, rfl⟩ := List.cons.inj hsplit
        rw [← hm] at hafter ⊢
        exact ⟨[], o :: rest, rfl, by simp,
          List.forall_mem_cons.mpr ⟨Nat.le_of_not_lt hlonger, hafter⟩⟩
      | cons x before =>
        obtain ⟨rfl, hrest⟩ := List.cons.inj hsplit
        obtain ⟨hm, hbefore⟩ := List.forall_mem_cons.mp hbefore
        refine ⟨m :: o :: before, after, congrArg (m :: o :: ·) hrest, ?_, hafter⟩
        exact List.forall_mem_cons.mpr ⟨hm,
          List.forall_mem_cons.mpr ⟨Nat.lt_of_le_of_lt (Nat.le_of_not_lt hlonger) hm, hbefore⟩⟩

/-- Where a mapping covers a directory, the one taken is the first of the deepest that do. -/
theorem exists_deepest {mappings : List Mapping} {below : List Text}
    (hnormal : ∀ m ∈ mappings, m.IsNormal) (hbelow : ∀ n ∈ below, '/' ∉ n)
    (hcovered : ∃ m ∈ mappings, m.names <+: below) :
    ∃ m, deepest? (mappings.filter (·.covers (directoryOf below))) = some m ∧
      IsDeepest mappings below m := by
  have hcovers : ∀ m ∈ mappings, (m.covers (directoryOf below) = true ↔ m.names <+: below) :=
    fun m hm => (hnormal m hm).covers_iff hbelow
  cases hfilter : mappings.filter (·.covers (directoryOf below)) with
  | nil =>
    obtain ⟨m, hm, hprefix⟩ := hcovered
    exact absurd ((hcovers m hm).mpr hprefix) (List.filter_eq_nil_iff.mp hfilter m hm)
  | cons x rest =>
    obtain ⟨before, after, hsplit, hbefore, hafter⟩ := foldl_deeper x rest
    refine ⟨rest.foldl deeper x, rfl, ?_⟩
    rw [hsplit] at hfilter
    obtain ⟨l₁, l₂, rfl, hl₁, hl₂⟩ := List.filter_eq_append_iff.mp hfilter
    obtain ⟨l₃, l₄, rfl, hl₃, hbest, hl₄⟩ := List.filter_eq_cons_iff.mp hl₂
    have hprefix := (hcovers _ (by simp)).mp hbest
    refine ⟨l₁ ++ l₃, l₄, by simp, hprefix, fun o ho hobelow => ?_, fun o ho hobelow => ?_⟩
    · have hmem : o ∈ l₁ ++ (l₃ ++ rest.foldl deeper x :: l₄) := by
        rw [← List.append_assoc]
        exact List.mem_append_left _ ho
      refine ((hnormal o hmem).width_lt_iff (hnormal _ (by simp)) hobelow hprefix).mp (hbefore o ?_)
      rw [← hl₁, List.mem_filter]
      refine ⟨(List.mem_append.mp ho).resolve_right fun ho => ?_, (hcovers o hmem).mpr hobelow⟩
      exact hl₃ o ho ((hcovers o hmem).mpr hobelow)
    · have hmem : o ∈ l₁ ++ (l₃ ++ rest.foldl deeper x :: l₄) := by simp [ho]
      have hle : Text.width o.directory ≤ Text.width (rest.foldl deeper x).directory := by
        refine hafter o ?_
        rw [← hl₄, List.mem_filter]
        exact ⟨ho, (hcovers o hmem).mpr hobelow⟩
      have hlt := (hnormal _ (by simp)).width_lt_iff (hnormal o hmem) hprefix hobelow
      exact Nat.le_of_not_lt fun hlonger => Nat.not_lt.mpr hle (hlt.mpr hlonger)

end Autoload

/-! ## §4 The namespace of a file -/

namespace Path

/-- The name of a component of a path is one of its pieces. -/
theorem mem_segments_of_name {p : Path} {n : Text} (h : Component.name n ∈ p.components) :
    n ∈ Text.segments '/' p.text := by
  have hpiece : ∀ {s : Text}, Component.ofSegment s = some (.name n) → n = s := by
    intro s hs
    rw [Component.ofSegment] at hs
    split at hs
    · cases hs
    · split at hs
      · cases hs
      · exact (Component.name.inj (Option.some.inj hs)).symm
  rw [components] at h
  cases hs : Text.segments '/' p.text with
  | nil => simp [hs] at h
  | cons first rest =>
    rw [hs] at h
    rcases List.mem_append.mp h with h | h
    · have hfirst : firstComponent first (!rest.isEmpty) = some (.name n) := by simpa using h
      rw [firstComponent] at hfirst
      split at hfirst
      · split at hfirst <;> cases hfirst
      · split at hfirst
        · cases hfirst
        · rw [hpiece hfirst]
          exact List.mem_cons_self
    · obtain ⟨s, hs, hname⟩ := List.mem_filterMap.mp h
      rw [hpiece hname]
      exact List.mem_cons_of_mem first hs

theorem directoryNames_no_slash (p : Path) : ∀ n ∈ p.directoryNames, '/' ∉ n := by
  intro n hn
  obtain ⟨c, hc, hname⟩ := List.mem_filterMap.mp hn
  cases c with
  | name text =>
    obtain rfl : text = n := Option.some.inj hname
    exact Text.not_mem_of_mem_segments (mem_segments_of_name (List.dropLast_subset _ hc))
  | root => cases hname
  | here => cases hname
  | up => cases hname

end Path

namespace Autoload

/-- **The deepest mapping gives the namespace.** Of a project whose mappings may be written in any form,
and of any path: a mapping covers the directory of the file exactly when the names of the mapping are
the first of the names that lead there. When one does, the namespace is made of the namespace of the
first of the deepest mappings that do, test mappings standing before the others, and of the names
below that mapping. When none does, it is `Tests` and the names, without `tests` at their start. -/
theorem namespaceOf_exact (tests production : List (Text × Text)) (p : Path) :
    let a : Autoload := ⟨tests.map fun (directory, ns) => .ofTexts directory ns,
      production.map fun (directory, ns) => .ofTexts directory ns⟩
    let below := p.directoryNames
    (∀ m ∈ a.tests ++ a.production, m.covers (directoryOf below) = true ↔ m.names <+: below) ∧
    ((∃ m ∈ a.tests ++ a.production, m.names <+: below) →
      ∃ m rest, IsDeepest (a.tests ++ a.production) below m ∧ below = m.names ++ rest ∧
        a.namespaceOf p =
          Text.join ['\\'] ((Text.segments '\\' m.ns).filter (· ≠ []) ++ rest)) ∧
    ((∀ m ∈ a.tests ++ a.production, ¬ m.names <+: below) →
      a.namespaceOf p = Text.join ['\\']
        ("Tests".toList :: if below.head? = some "tests".toList then below.tail else below)) := by
  intro a below
  have hbelow : ∀ n ∈ below, '/' ∉ n := p.directoryNames_no_slash
  have hnormal : ∀ m ∈ a.tests ++ a.production, m.IsNormal := by
    intro m hm
    rcases List.mem_append.mp hm with hm | hm <;>
      obtain ⟨written, -, rfl⟩ := List.mem_map.mp hm <;>
      exact Mapping.isNormal_ofTexts written.1 written.2
  have hcovers : ∀ m ∈ a.tests ++ a.production,
      (m.covers (directoryOf below) = true ↔ m.names <+: below) :=
    fun m hm => (hnormal m hm).covers_iff hbelow
  refine ⟨hcovers, fun hcovered => ?_, fun hbare => ?_⟩
  · obtain ⟨m, hm, hdeepest⟩ := exists_deepest hnormal hbelow hcovered
    have hmem : m ∈ a.tests ++ a.production := by
      obtain ⟨before, after, hsplit, -⟩ := hdeepest
      simp [hsplit]
    obtain ⟨rest, hrest⟩ : m.names <+: below := by
      obtain ⟨_, _, -, hprefix, -⟩ := hdeepest
      exact hprefix
    refine ⟨m, rest, hdeepest, hrest.symm, ?_⟩
    rw [namespaceOf, hm]
    change extend m.ns (below.drop m.depth) = _
    rw [(hnormal m hmem).depth_eq, ← hrest, List.drop_left, extend]
  · have hnone : (a.tests ++ a.production).filter (·.covers (directoryOf below)) = [] :=
      List.filter_eq_nil_iff.mpr fun m hm hcover => hbare m hm ((hcovers m hm).mp hcover)
    have hfallback : fallback.covers (directoryOf below) = true ↔ ["tests".toList] <+: below :=
      Mapping.IsNormal.covers_iff (m := fallback) rfl hbelow
    rw [namespaceOf, hnone]
    dsimp only [deepest?]
    by_cases htests : below.head? = some "tests".toList
    · obtain ⟨rest, hrest⟩ := List.head?_eq_some_iff.mp htests
      have hprefix : ["tests".toList] <+: below := ⟨rest, hrest.symm⟩
      rw [if_pos (hfallback.mpr hprefix), if_pos htests]
      change extend fallback.ns (below.drop fallback.depth) = _
      rw [hrest]
      rfl
    · rw [if_neg fun hcover => ?_, if_neg htests]
      · rfl
      · obtain ⟨rest, hrest⟩ := hfallback.mp hcover
        exact htests (by rw [← hrest]; rfl)

/-- The deeper of two mappings counts, and a directory is not covered by one whose name is how its own
begins. -/
example :
    let a : Autoload := ⟨[.ofTexts "./tests" "Acme\\Tests"], [.ofTexts "tests\\Unit\\" "Unit"]⟩
    a.namespaceOf "tests/Unit/Foo/ATest.php" = "Unit\\Foo" ∧
      a.namespaceOf "tests/Feature/ATest.php" = "Acme\\Tests\\Feature" ∧
      a.namespaceOf "tests-extra/ATest.php" = "Tests\\tests-extra" := by
  decide

end Autoload

end Crosslink
