import Crosslink.Slug
import Crosslink.Target

/-!
# Back-references

A back-reference, declared on a production method, names a test that links the method: one test of
a container (a test class or file), or every test of it. Tests are known by identifiers of the form
`container::member`.
-/

namespace Crosslink

/-- Split a test identifier at its first `::` into container and member. An identifier without one
is a bare member. -/
def splitIdentifier (identifier : Text) : Text × Text :=
  (Text.splitFirst memberSeparator identifier).getD ([], identifier)

/-- The tests a production method names. -/
structure BackReference where
  /-- The test class, or the name derived from the test file. -/
  container : Text
  /-- The test's name or description; nothing when every test of the container is meant. -/
  member : Option Text
  deriving DecidableEq, Repr

namespace BackReference

/-- Name one test of a container. -/
def ofMember (container member : Text) : BackReference := ⟨unrooted container, some member⟩

/-- Name every test of a container. -/
def ofContainer (container : Text) : BackReference := ⟨unrooted container, none⟩

/-- The back-reference to write for a registered test. -/
def ofIdentifier (identifier : Text) : BackReference :=
  ofMember (splitIdentifier identifier).1 (splitIdentifier identifier).2

/-- The identifier of the one test named, whose member is the slug of the description given. -/
def key (r : BackReference) : Option Text :=
  r.member.map fun m => r.container ++ memberSeparator ++ slug m

/-- True when the reference names the test with this identifier. -/
def names (r : BackReference) (identifier : Text) : Bool :=
  match r.key with
  | some key => key == identifier
  | none => (splitIdentifier identifier).1 == r.container

/-- The reference as people read it. -/
def display (r : BackReference) : Text :=
  match r.member with
  | some m => r.container ++ memberSeparator ++ m
  | none => r.container

/-- True when two references are written alike or name the same single test. -/
def same (a b : BackReference) : Bool :=
  a == b || (a.container == b.container && a.key.isSome && a.key == b.key)

end BackReference

end Crosslink
