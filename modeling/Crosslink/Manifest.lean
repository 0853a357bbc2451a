import Crosslink.Autoload
import Crosslink.Json.Node
import Crosslink.Json.Passed

/-!
# Project manifests

The manifest of a project is a JSON object that says, among much else, which directories hold which
namespaces (`autoload` for production code and `autoload-dev` for tests, each with a section
`psr-4`) and which packages the project requires. All other members are passed over; they only have
to be JSON.

Every object with known members may also be given as a list of their values in order. A known member
must not be there twice, while of two namespaces or packages of one name the last counts.
-/

namespace Crosslink

open Json (Reader)

/-- What a project says about itself. -/
structure Manifest where
  autoload : Autoload
  /-- The names of the packages required, for production or for development. -/
  packages : List Text
  deriving DecidableEq, Repr

namespace Manifest

open Json.Reader

/-- The name of the file that holds the manifest. -/
def fileName : Text := "composer.json"

/-- The levels of lists and objects that may stand in one another are one less than this. -/
def levels : Nat := 128

/-! ## Maps with any names -/

/-- A list of named values with one more, which takes the place of one of its name. -/
def insert {α : Type} (entries : List (Text × α)) (name : Text) (value : α) : List (Text × α) :=
  entries.filter (·.1 ≠ name) ++ [(name, value)]

/-- Named values in the order of their names. -/
def sortByName {α : Type} (entries : List (Text × α)) : List (Text × α) :=
  entries.mergeSort fun a b => (compare a.1 b.1).isLE

/-- Read the names in an object, whose values may be anything. -/
def names (levels : Nat) : Reader (List Text) :=
  readMap levels [] fun found name => do
    colon
    let _ ← node (levels - 1)
    return name :: found

/-- The directories that the value of a namespace names: one, or a list of them. -/
def directories? : Json.Node → Option (List Text)
  | .string directory => some [directory]
  | .list items => items.mapM fun
    | .string directory => some directory
    | _ => none
  | _ => none

/-- Read the directories of every namespace, in the order of the namespaces. -/
def namespaces (levels : Nat) : Reader (List (Text × List Text)) := do
  let entries ← readMap levels [] fun entries name => do
    colon
    match directories? (← node (levels - 1)) with
    | some directories => return insert entries name directories
    | none => failInObject (.noVariant "untagged enum Psr4Paths")
  return sortByName entries

/-- The mappings that namespaces with their directories come to. -/
def mappings (entries : List (Text × List Text)) : List Mapping :=
  entries.flatMap fun (ns, directories) => directories.map (Mapping.ofTexts · ns)

/-! ## Objects with known members -/

/-- Read the value of a known member, which must not be there already. -/
def once {α : Type} (seen : Option α) (name : Text) (value : Reader α) : Reader (Option α) := do
  if seen.isSome then failInObject (.duplicateField name)
  colon
  return some (← value)

/-- Read the next item of a list, if there is one. -/
def item? {α : Type} (isFirst : Bool) (item : Reader α) : Reader (Option α) := do
  if ← nextItem isFirst then return some (← item) else return none

/-- Read the mappings of a section. -/
def sectionMappings (levels : Nat) : Reader (List Mapping) := do
  let inside := namespaces (levels - 1)
  let found ← readRecord levels "struct AutoloadSection" (item? true inside) none
    fun found name => do
      if name = ("psr-4" : Text) then once found name inside
      else
        colon
        passValue
        return found
  return mappings (found.getD [])

/-- The members of a manifest that have been read. -/
structure Members where
  production : Option (List Mapping) := none
  tests : Option (List Mapping) := none
  required : Option (List Text) := none
  requiredForTests : Option (List Text) := none

namespace Members

/-- Read one member of a manifest. -/
def read (levels : Nat) (m : Members) (name : Text) : Reader Members := do
  if name = ("autoload" : Text) then
    return { m with production := ← once m.production name (sectionMappings levels) }
  else if name = ("autoload-dev" : Text) then
    return { m with tests := ← once m.tests name (sectionMappings levels) }
  else if name = ("require" : Text) then
    return { m with required := ← once m.required name (names levels) }
  else if name = ("require-dev" : Text) then
    return { m with requiredForTests := ← once m.requiredForTests name (names levels) }
  else
    colon
    passValue
    return m

/-- Read the members of a manifest from a list, where they stand in this order. -/
def readItems (levels : Nat) : Reader Members := do
  let production ← item? true (sectionMappings levels)
  let tests ← item? production.isNone (sectionMappings levels)
  let required ← item? tests.isNone (names levels)
  let requiredForTests ← item? required.isNone (names levels)
  return { production, tests, required, requiredForTests }

/-- The manifest that members make up. -/
def manifest (m : Members) : Manifest :=
  ⟨⟨m.tests.getD [], m.production.getD []⟩, m.required.getD [] ++ m.requiredForTests.getD []⟩

end Members

/-- Read a manifest. -/
def parse (source : Text) : Except Json.Error Manifest :=
  let inside := levels - 1
  let members := readRecord levels "struct ComposerManifest" (Members.readItems inside) {}
    (Members.read inside)
  (whole members source).map Members.manifest

/-- True when the manifest requires a package. -/
def requires (m : Manifest) (package : Text) : Bool := m.packages.contains package

end Manifest

end Crosslink
