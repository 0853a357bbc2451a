import Crosslink.Production.Index

/-!
# Validation

Links and back-references are the two sides of one relation. Validation compares them and finds
every place where they disagree: a link without a back-reference, a back-reference without a link,
either of them to something that does not exist, and tests that cannot be told apart.
-/

namespace Crosslink

/-! ## Findings -/

/-- The kinds of disagreement. -/
inductive Finding.Kind where
  /-- A test links a method that does not name it back. -/
  | missingTestedBy
  /-- A method names a test that does not link it back. -/
  | missingTestLink
  /-- A test links a class or method that does not exist. -/
  | danglingLink
  /-- A method names a test that does not exist. -/
  | orphanedBackReference
  /-- A test is there more than once. -/
  | duplicateTest
  deriving DecidableEq, Repr

namespace Finding.Kind

/-- The kinds in their order. -/
def all : List Finding.Kind :=
  [missingTestedBy, missingTestLink, danglingLink, orphanedBackReference, duplicateTest]

/-- The place of a kind in their order. -/
def rank : Finding.Kind → Nat
  | missingTestedBy => 0
  | missingTestLink => 1
  | danglingLink => 2
  | orphanedBackReference => 3
  | duplicateTest => 4

instance : Ord Finding.Kind := ⟨compareOn rank⟩

/-- The kind in output. -/
def label : Finding.Kind → Text
  | missingTestedBy => "missing_tested_by"
  | missingTestLink => "missing_test_link"
  | danglingLink => "dangling_link"
  | orphanedBackReference => "orphaned_back_reference"
  | duplicateTest => "duplicate_test"

/-- True for the kinds that an edit can settle. -/
def canBeSettled : Finding.Kind → Bool
  | missingTestedBy | missingTestLink => true
  | _ => false

end Finding.Kind

/-- One disagreement. -/
structure Finding where
  kind : Finding.Kind
  /-- The production class or method it is about; none when it is about a test alone. -/
  target : Option Target
  /-- The key of the test, or the back-reference that names no test. -/
  test : Text
  /-- The file it shows in. -/
  file : Option Path
  message : Text
  deriving DecidableEq, Repr

namespace Finding

/-- The canonical form of the target. -/
def canonical (f : Finding) : Option Text := f.target.map Target.canonical

/-- Findings are ordered by target, those without one first, then by test and by kind. -/
def cmp : Finding → Finding → Ordering :=
  compareLex (compareOn canonical) (compareLex (compareOn test) (compareOn kind))

/-- True when two findings say the same, their files being paths that mean the same. -/
def same (a b : Finding) : Bool :=
  a.kind == b.kind && a.target == b.target && a.test == b.test
    && a.file.map Path.components == b.file.map Path.components && a.message == b.message

end Finding

/-- The findings in their order, those with equal neighbours once. -/
def report (findings : List Finding) : List Finding :=
  (findings.mergeSort fun a b => (a.cmp b).isLE).eraseRepsBy Finding.same

/-! ## Comparing the two sides -/

namespace Validation

/-- What a link of a test comes to. -/
def checkLink (registry : Registry) (production : Production.Index) (test : Text) (link : Link) :
    List Finding :=
  let target := link.target
  let file := (registry.get? test).map RegisteredTest.file
  let dangling := fun what : Text =>
    [Finding.mk .danglingLink (some target) test file (what ++ " does not exist")]
  if target.isClass then
    if production.knowsClass target.className then [] else dangling ("class " ++ target.className)
  else match production.method? target with
    | none =>
      if production.knowsClass target.className then dangling ("method " ++ target.canonical)
      else dangling ("class " ++ target.className)
    | some entry =>
      if entry.testedBy.any (·.names test) then []
      else
        [⟨.missingTestedBy, some target, test, file,
          test ++ " links " ++ target.canonical ++ " but has no back-reference"⟩]

/-- True when a test links a method or the class of it. -/
def linksBack (registry : Registry) (method : Target) (test : Text) : Bool :=
  (registry.linksOf test).any fun l => l.target == method || l.target == method.owner

/-- What a back-reference of a method comes to. One that names every test of a container asks for no
link. -/
def checkBackReference (registry : Registry) (method : Target) (entry : Production.Entry)
    (reference : BackReference) : List Finding :=
  match registry.named reference with
  | [] =>
    [⟨.orphanedBackReference, some method, reference.display, some entry.file,
      method.canonical ++ " names unknown test " ++ reference.display⟩]
  | records =>
    if reference.member.isNone then []
    else
      (records.filter fun r => !linksBack registry method r.identifier).map fun r =>
        ⟨.missingTestLink, some method, r.identifier, some r.file,
          method.canonical ++ " names " ++ r.identifier ++ " but the test does not link it"⟩

/-- What a test that is there more than once comes to. -/
def duplicate (registry : Registry) (test : Text) (count : Nat) : Finding :=
  ⟨.duplicateTest, none, test, (registry.get? test).map RegisteredTest.file,
    test ++ " is declared " ++ Text.ofNat count ++ " times"⟩

/-- Every disagreement, as it comes up. -/
def findings (registry : Registry) (production : Production.Index) : List Finding :=
  (registry.linkView.flatMap fun (test, links) =>
    links.flatMap (checkLink registry production test))
  ++ (production.methods.flatMap fun (method, entry) =>
    entry.testedBy.flatMap (checkBackReference registry method entry))
  ++ registry.duplicates.map fun (test, count) => duplicate registry test count

end Validation

/-- The report on a registry and the production code. -/
def validate (registry : Registry) (production : Production.Index) : List Finding :=
  report (Validation.findings registry production)

end Crosslink
