import Crosslink.Text.Basic

/-!
# Paths

A path is kept as it was written, but it means its components: repeated slashes and dots inside it
say nothing. Paths are therefore compared, sorted and taken apart component by component.
-/

namespace Crosslink

/-- One component of a path. -/
inductive Component where
  /-- The slash an absolute path begins with. -/
  | root
  /-- The dot a path begins with. -/
  | here
  /-- Two dots. -/
  | up
  /-- A name in a directory. -/
  | name (text : Text)
  deriving DecidableEq, Repr

namespace Component

/-- The kinds of components in the order in which they sort. -/
def rank : Component → Nat
  | root => 0
  | here => 1
  | up => 2
  | name _ => 3

/-- The name of a component that is one. -/
def name? : Component → Option Text
  | name text => some text
  | _ => none

/-- Components sort by kind and then by name. -/
instance : Ord Component := ⟨compareLex (compareOn rank) (compareOn name?)⟩

/-- What a piece of a path between slashes means after its first component; an empty piece and a
dot mean nothing. -/
def ofSegment (segment : Text) : Option Component :=
  if segment = [] ∨ segment = ['.'] then none
  else if segment = ['.', '.'] then some up
  else some (name segment)

end Component

/-- A path as it was written. -/
structure Path where
  text : Text
  deriving DecidableEq, Repr

instance : Coe String Path := ⟨fun s => ⟨s.toList⟩⟩

namespace Path

/-- What the first piece of a path means; `more` tells whether a slash follows it. -/
def firstComponent (segment : Text) (more : Bool) : Option Component :=
  if segment = [] then (if more then some .root else none)
  else if segment = ['.'] then some .here
  else Component.ofSegment segment

/-- The components a path means. -/
def components (p : Path) : List Component :=
  match Text.segments '/' p.text with
  | [] => []
  | first :: rest =>
    (firstComponent first !rest.isEmpty).toList ++ rest.filterMap Component.ofSegment

/-- Paths are ordered by their components. -/
def cmp (a b : Path) : Ordering := compare a.components b.components

/-- True when two paths mean the same. -/
def same (a b : Path) : Bool := a.components == b.components

/-- The names of a path's components. -/
def names (p : Path) : List Text := p.components.filterMap Component.name?

/-- The directory names of a path: those of its components but the last. -/
def directoryNames (p : Path) : List Text := p.components.dropLast.filterMap Component.name?

/-- The last component, when it is a name. -/
def fileName (p : Path) : Option Text := p.components.getLast?.bind Component.name?

/-- What follows the last dot of the file name, a dot at its start not counted. -/
def extension (p : Path) : Option Text := do
  let (stem, ext) ← Text.splitLast ['.'] (← p.fileName)
  if stem = [] then none else some ext

/-- The path `q` seen from the directory `p`. -/
def join (p q : Path) : Path :=
  if q.text.head? = some '/' then q
  else if p.text = [] ∨ p.text.getLast? = some '/' then ⟨p.text ++ q.text⟩
  else ⟨p.text ++ "/" ++ q.text⟩

/-- True for a piece that means nothing after the first component. -/
def idle (segment : Text) : Bool := segment = [] || segment = ['.']

/-- True when a path has more than one piece and the last means nothing, as in `dir/`. -/
def endsIdle (p : Path) : Bool := ((Text.segments '/' p.text).tail.getLast?).any idle

/-- The pieces of a path without those at the end that mean nothing. -/
def dropIdleEnd (segments : List Text) : List Text := (segments.reverse.dropWhile idle).reverse

/-- The pieces left when the pieces of the first `n` components are dropped. -/
def dropComponents : Nat → List Text → List Text
  | _, [] => []
  | 0, segments => segments
  | n + 1, s :: rest => if idle s then dropComponents (n + 1) rest else dropComponents n rest

/-- The path of `p` under the directory `base`, as it is written in `p` but for slashes and dots at
its ends; nothing when `p` does not lie there. -/
def under? (base p : Path) : Option Path :=
  let pieces := Text.segments '/' p.text
  let k := base.components.length
  if !base.components.isPrefixOf p.components then none
  else if k = 0 then
    match pieces with
    | [] => some p
    | first :: rest =>
      let kept := dropIdleEnd rest
      if kept.isEmpty && first = [] && !rest.isEmpty then some ⟨['/']⟩
      else some ⟨Text.join ['/'] (first :: kept)⟩
  else
    some ⟨Text.join ['/'] (dropIdleEnd ((dropComponents (k - 1) pieces.tail).dropWhile idle))⟩

/-- The path as seen from `root`, or the path itself when it does not lie under it. -/
def seenFrom (root p : Path) : Path := (under? root p).getD p

end Path

end Crosslink
