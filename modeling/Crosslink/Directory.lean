import Crosslink.FileTree

/-!
# Directories

A directory is what it holds together with the path by which it is reached. That path stands in
front of every path that is looked up from the directory, so that it counts in the length that paths
may have. The empty path is that of the directory one is in.
-/

namespace Crosslink

/-- A directory: the path by which it is reached, and what it holds. -/
structure Directory where
  path : Path := ⟨[]⟩
  tree : FileTree := .nothing
  deriving DecidableEq, Repr

namespace Directory

/-- What a path leads to, seen from the directory. -/
def locate (d : Directory) (p : Path) : Except FileError Entry :=
  match FileTree.refusal (d.path.join p) with
  | some e => .error e
  | none => d.tree.locate p

/-- The text of the file at a path. -/
def read (d : Directory) (p : Path) : Except FileError Text :=
  match FileTree.refusal (d.path.join p) with
  | some e => .error e
  | none => d.tree.read p

/-- True when a path leads to a file. -/
def isFile (d : Directory) (p : Path) : Bool :=
  match d.locate p with
  | .ok (.file _) => true
  | _ => false

/-- Write a file. -/
def write (d : Directory) (p : Path) (content : Content) : Except FileError Directory :=
  match FileTree.refusal (d.path.join p) with
  | some e => .error e
  | none => (d.tree.write p content).map fun tree => { d with tree }

/-- The tree without what is in directories whose path is too long; `width` is the number of bytes
in front of the names at the top. -/
def reachable (width : Nat) : FileTree → FileTree
  | .nothing => .nothing
  | .file n content others => .file n content (reachable width others)
  | .folder n inner others =>
    let reached := width + Text.width n
    .folder n (if reached < FileTree.pathLimit then reachable (reached + 1) inner else .nothing)
      (reachable width others)

/-- What can be reached in the directory. -/
def content (d : Directory) : FileTree := reachable (Text.width (d.path.join ⟨[]⟩).text) d.tree

end Directory

end Crosslink
