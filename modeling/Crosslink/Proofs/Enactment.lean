import Crosslink.Plan
import Crosslink.Proofs.Report

/-!
# Plans carried out on the data

A plan is meant for source texts, but what it comes to can be said without them: a back-reference is
put behind those of its method, and a link is put behind those of the first record of its test, or
taken out of them. This module carries actions out on a registry and an index, and says what every
view of the two shows afterwards.

## Main statements

* `sameTests_enactAll`: the tests, their order and their files stay what they are.
* `linksOf_enactAll`: the links of a test are those of its first record that no action removes,
  then those added, then those of its other records.
* `methods_enactAll`: the methods stay, each with the references added behind its own.
-/

namespace Crosslink

/-! ## §1 Sets in order -/

theorem mem_sortedSet {α : Type} [Ord α] [DecidableEq α] {x : α} {l : List α} :
    x ∈ sortedSet l ↔ x ∈ l := by
  constructor
  · intro h
    exact List.mem_mergeSort.mp (mem_of_mem_eraseRepsBy h)
  · intro h
    obtain ⟨y, hy, hyx⟩ := exists_mem_eraseRepsBy (r := (· == ·)) (by simp)
      (by intro a b c; simp only [beq_iff_eq]; exact Eq.trans) (List.mem_mergeSort.mpr h)
    obtain rfl : y = x := by simpa using hyx
    exact hy

/-! ## §2 Registries -/

/-- The record with other links. -/
def RegisteredTest.withLinks (record : RegisteredTest) (links : List Link) : RegisteredTest :=
  { record with case := { record.case with links } }

namespace RegisteredTest

@[simp] theorem withLinks_file (record : RegisteredTest) (links : List Link) :
    (record.withLinks links).file = record.file := rfl

@[simp] theorem withLinks_identifier (record : RegisteredTest) (links : List Link) :
    (record.withLinks links).identifier = record.identifier := rfl

@[simp] theorem withLinks_links (record : RegisteredTest) (links : List Link) :
    (record.withLinks links).links = links := rfl

end RegisteredTest

namespace Registry

/-- Records with the links of the first one of a test changed. -/
def editFirst (test : Text) (change : List Link → List Link) :
    List RegisteredTest → List RegisteredTest
  | [] => []
  | record :: rest =>
    if record.identifier = test then record.withLinks (change record.links) :: rest
    else record :: editFirst test change rest

/-- The registry with the links of the first record of a test changed. -/
def edit (r : Registry) (test : Text) (change : List Link → List Link) : Registry :=
  ⟨editFirst test change r.records⟩

/-- The links of the first record of a test. -/
def firstLinks (r : Registry) (test : Text) : List Link :=
  ((r.get? test).map RegisteredTest.links).getD []

/-- The links of all records of a test but the first. -/
def laterLinks (r : Registry) (test : Text) : List Link :=
  (r.records.filter (·.identifier == test)).tail.flatMap RegisteredTest.links

theorem linksOf_eq (r : Registry) (test : Text) :
    r.linksOf test = r.firstLinks test ++ r.laterLinks test := by
  rw [linksOf, firstLinks, laterLinks, get?, ← List.head?_filter]
  cases r.records.filter (·.identifier == test) <;> simp

theorem mem_identifiers {r : Registry} {test : Text} :
    test ∈ r.identifiers ↔ ∃ record ∈ r.records, record.identifier = test := by
  simp [identifiers, mem_sortedSet]

/-- A test that links something is registered. -/
theorem mem_identifiers_of_mem_linksOf {r : Registry} {test : Text} {link : Link}
    (h : link ∈ r.linksOf test) : test ∈ r.identifiers := by
  obtain ⟨record, hrecord, -⟩ := List.mem_flatMap.mp h
  rw [List.mem_filter] at hrecord
  exact mem_identifiers.mpr ⟨record, hrecord.1, by simpa using hrecord.2⟩

theorem exists_get?_of_mem_identifiers {r : Registry} {test : Text} (h : test ∈ r.identifiers) :
    ∃ record, r.get? test = some record ∧ record.identifier = test := by
  obtain ⟨record, hmem, hid⟩ := mem_identifiers.mp h
  have hsome : (r.get? test).isSome := List.find?_isSome.mpr ⟨record, hmem, by simp [hid]⟩
  obtain ⟨first, hfirst⟩ := Option.isSome_iff_exists.mp hsome
  exact ⟨first, hfirst, by simpa using List.find?_some hfirst⟩

/-- What the editing of one record leaves of the list of all tests. -/
def places (r : Registry) : List (Path × Text) := r.records.map fun x => (x.file, x.identifier)

theorem identifiers_eq (r : Registry) : r.identifiers = sortedSet (r.places.map Prod.snd) := by
  simp [identifiers, places, Function.comp_def]

/-- The views that do not look at links tell registries with the same tests nothing apart. -/
theorem identifiers_congr {r s : Registry} (h : r.places = s.places) :
    r.identifiers = s.identifiers := by
  rw [identifiers_eq, identifiers_eq, h]

theorem file_get? (r : Registry) (test : Text) :
    (r.get? test).map RegisteredTest.file = (r.places.find? (·.2 == test)).map Prod.fst := by
  simp [get?, places, List.find?_map, Function.comp_def]

theorem file_get?_congr {r s : Registry} (h : r.places = s.places) (test : Text) :
    (r.get? test).map RegisteredTest.file = (s.get? test).map RegisteredTest.file := by
  rw [file_get?, file_get?, h]

theorem map_place_named (r : Registry) (reference : BackReference) :
    (r.named reference).map (fun x => (x.file, x.identifier))
      = r.places.filter fun x => reference.names x.2 := by
  simp [named, places, List.filter_map, Function.comp_def]

theorem named_eq_nil_congr {r s : Registry} (h : r.places = s.places)
    (reference : BackReference) : r.named reference = [] ↔ s.named reference = [] := by
  rw [← List.map_eq_nil_iff (f := fun x : RegisteredTest => (x.file, x.identifier)),
    ← List.map_eq_nil_iff (l := s.named reference)
      (f := fun x : RegisteredTest => (x.file, x.identifier)),
    map_place_named, map_place_named, h]

theorem duplicates_congr {r s : Registry} (h : r.places = s.places) :
    r.duplicates = s.duplicates := by
  have hcount : ∀ (x : Registry) (test : Text),
      x.records.countP (·.identifier == test) = x.places.countP (·.2 == test) := by
    intro x test
    simp [places, List.countP_map, Function.comp_def]
  simp only [duplicates, hcount, identifiers_congr h, h]

theorem map_place_editFirst (test : Text) (change : List Link → List Link) :
    ∀ records : List RegisteredTest,
      (editFirst test change records).map (fun x => (x.file, x.identifier))
        = records.map fun x => (x.file, x.identifier)
  | [] => rfl
  | record :: rest => by
      unfold editFirst
      split
      · simp
      · simp [map_place_editFirst test change rest]

@[simp] theorem places_edit (r : Registry) (test : Text) (change : List Link → List Link) :
    (r.edit test change).places = r.places :=
  map_place_editFirst test change r.records

theorem filter_editFirst_self (test : Text) (change : List Link → List Link) :
    ∀ records : List RegisteredTest,
      (editFirst test change records).filter (·.identifier == test) =
        match records.filter (·.identifier == test) with
        | [] => []
        | record :: rest => record.withLinks (change record.links) :: rest
  | [] => rfl
  | record :: rest => by
      unfold editFirst
      by_cases h : record.identifier = test
      · simp [h]
      · simp [h, filter_editFirst_self test change rest]

theorem filter_editFirst_of_ne {test other : Text} (change : List Link → List Link)
    (hne : other ≠ test) :
    ∀ records : List RegisteredTest,
      (editFirst test change records).filter (·.identifier == other)
        = records.filter (·.identifier == other)
  | [] => rfl
  | record :: rest => by
      unfold editFirst
      by_cases h : record.identifier = test
      · simp [h, Ne.symm hne]
      · simp [h, List.filter_cons, filter_editFirst_of_ne change hne rest]

theorem firstLinks_edit_self {r : Registry} {test : Text} (change : List Link → List Link)
    (h : test ∈ r.identifiers) :
    (r.edit test change).firstLinks test = change (r.firstLinks test) := by
  obtain ⟨record, hget, -⟩ := exists_get?_of_mem_identifiers h
  rw [get?, ← List.head?_filter] at hget
  rw [firstLinks, firstLinks, get?, get?, ← List.head?_filter, ← List.head?_filter, edit,
    filter_editFirst_self]
  cases hf : r.records.filter (·.identifier == test) with
  | nil => simp [hf] at hget
  | cons first rest => simp

theorem firstLinks_edit_of_ne (r : Registry) {test other : Text}
    (change : List Link → List Link) (h : other ≠ test) :
    (r.edit test change).firstLinks other = r.firstLinks other := by
  rw [firstLinks, firstLinks, get?, get?, ← List.head?_filter, ← List.head?_filter, edit,
    filter_editFirst_of_ne change h]

@[simp] theorem laterLinks_edit (r : Registry) (test other : Text)
    (change : List Link → List Link) :
    (r.edit test change).laterLinks other = r.laterLinks other := by
  rw [laterLinks, laterLinks, edit]
  by_cases h : other = test
  · subst h
    rw [filter_editFirst_self]
    cases r.records.filter (·.identifier == other) <;> rfl
  · rw [filter_editFirst_of_ne change h]

end Registry

/-! ## §3 The index of production code -/

namespace Production

/-- The entry with references put behind its own. -/
def Entry.extend (entry : Entry) (references : List BackReference) : Entry :=
  { entry with testedBy := entry.testedBy ++ references }

@[simp] theorem Entry.extend_file (entry : Entry) (references : List BackReference) :
    (entry.extend references).file = entry.file := rfl

@[simp] theorem Entry.extend_testedBy (entry : Entry) (references : List BackReference) :
    (entry.extend references).testedBy = entry.testedBy ++ references := rfl

@[simp] theorem Entry.extend_nil (entry : Entry) : entry.extend [] = entry := by
  simp [Entry.extend]

theorem Entry.extend_extend (entry : Entry) (a b : List BackReference) :
    (entry.extend a).extend b = entry.extend (a ++ b) := by
  simp [Entry.extend]

/-- The class with a reference put behind those of the methods that a target names. -/
def Class.addReference (target : Target) (reference : BackReference) (c : Class) : Class :=
  { c with methods := c.methods.map fun m =>
      if Target.ofMethod c.name m.name = target then
        { m with testedBy := m.testedBy ++ [reference] }
      else m }

namespace Index

/-- The index with a reference put behind those of the method that a target names. -/
def addReference (p : Index) (target : Target) (reference : BackReference) : Index :=
  ⟨p.classes.map fun (file, c) => (file, c.addReference target reference)⟩

@[simp] theorem knowsClass_addReference (p : Index) (target : Target)
    (reference : BackReference) (className : Text) :
    (p.addReference target reference).knowsClass className = p.knowsClass className := by
  simp [knowsClass, addReference, Class.addReference, Function.comp_def]

theorem declarations_addReference (p : Index) (target : Target) (reference : BackReference) :
    (p.addReference target reference).declarations =
      p.declarations.map fun (t, entry) =>
        (t, if t = target then entry.extend [reference] else entry) := by
  have hdeclared : ∀ (file : Path) (c : Class),
      declared file (c.addReference target reference) =
        (declared file c).map fun (t, entry) =>
          (t, if t = target then entry.extend [reference] else entry) := by
    intro file c
    simp only [declared, Class.addReference, List.map_map]
    refine List.map_congr_left fun m _ => ?_
    by_cases h : Target.ofMethod c.name m.name = target <;> simp [h, Entry.extend]
  simp [declarations, addReference, List.flatMap_map, List.map_flatMap, hdeclared]

/-- Looking a key up after the values have been changed key by key. -/
theorem lookup_map_value {α β : Type} [BEq α] [LawfulBEq α] (f : α → β → β) (key : α) :
    ∀ entries : List (α × β),
      (entries.map fun x => (x.1, f x.1 x.2)).lookup key = (entries.lookup key).map (f key)
  | [] => rfl
  | (k, v) :: rest => by
      by_cases h : key == k
      · obtain rfl : key = k := by simpa using h
        simp
      · simp [List.lookup_cons, h, lookup_map_value f key rest]

theorem method?_addReference (p : Index) (target other : Target) (reference : BackReference) :
    (p.addReference target reference).method? other =
      (p.method? other).map fun entry =>
        if other = target then entry.extend [reference] else entry := by
  rw [method?, declarations_addReference, ← List.map_reverse]
  exact lookup_map_value (fun t entry => if t = target then entry.extend [reference] else entry)
    other p.declarations.reverse

theorem mem_declarations_of_method? {p : Index} {target : Target} {entry : Entry}
    (h : p.method? target = some entry) : (target, entry) ∈ p.declarations := by
  obtain ⟨before, after, hsplit, -⟩ := List.lookup_eq_some_iff.mp h
  rw [← List.mem_reverse, hsplit]
  simp

/-- A method's target never names a whole class. -/
theorem isClass_of_method? {p : Index} {target : Target} {entry : Entry}
    (h : p.method? target = some entry) : target.isClass = false := by
  obtain ⟨c, -, hc⟩ := List.mem_flatMap.mp (mem_declarations_of_method? h)
  obtain ⟨m, -, hm⟩ := List.mem_map.mp hc
  rw [← (Prod.mk.inj hm).1]
  rfl

theorem mem_methods {p : Index} {target : Target} {entry : Entry} :
    (target, entry) ∈ p.methods ↔ p.method? target = some entry := by
  simp only [methods, List.mem_filterMap, mem_sortedSet, Option.map_eq_some_iff]
  constructor
  · rintro ⟨t, -, e, he, heq⟩
    obtain ⟨rfl, rfl⟩ := Prod.mk.inj heq
    exact he
  · intro h
    exact ⟨target, List.mem_map.mpr ⟨_, mem_declarations_of_method? h, rfl⟩, entry, h, rfl⟩

/-- Adding references keeps the methods and their order. -/
theorem methods_of_method?_eq {p q : Index} (f : Target → Entry → Entry)
    (hkeys : q.declarations.map Prod.fst = p.declarations.map Prod.fst)
    (h : ∀ t, q.method? t = (p.method? t).map (f t)) :
    q.methods = p.methods.map fun (t, entry) => (t, f t entry) := by
  rw [methods, methods, hkeys, List.map_filterMap]
  congr 1
  funext t
  rw [h t]
  cases p.method? t <;> rfl

end Index

end Production

/-! ## §4 Actions -/

namespace Action

/-- What an action makes of the links of the first record of a test. -/
def onLinks (test : Text) : Action → List Link → List Link
  | addTestLink _ t target covers, links => if t = test then links ++ [⟨target, covers⟩] else links
  | removeTestLink _ t target, links =>
    if t = test then links.filter (·.target ≠ target) else links
  | addBackReference .., links => links

/-- The link that an action adds to a test. -/
def addedTo? (test : Text) : Action → Option Link
  | addTestLink _ t target covers => if t = test then some ⟨target, covers⟩ else none
  | _ => none

/-- The reference that an action adds to a method. -/
def referenceFor? (method : Target) : Action → Option BackReference
  | addBackReference _ m test => if m = method then some test else none
  | _ => none

/-- True when an action takes a target out of the links of a test. -/
def removes (test : Text) (target : Target) : Action → Bool
  | removeTestLink _ t gone => t = test && gone = target
  | _ => false

section Constructors

variable (test t : Text) (target : Target) (record : RegisteredTest) (covers : Bool)
  (file : Path) (method : Target) (reference : BackReference) (links : List Link)

@[simp] theorem onLinks_addBackReference :
    (addBackReference file method reference).onLinks test links = links := rfl

@[simp] theorem onLinks_addTestLink :
    (addTestLink record t target covers).onLinks test links =
      if t = test then links ++ [⟨target, covers⟩] else links := rfl

@[simp] theorem onLinks_removeTestLink :
    (removeTestLink record t target).onLinks test links =
      if t = test then links.filter (·.target ≠ target) else links := rfl

@[simp] theorem addedTo?_addBackReference :
    (addBackReference file method reference).addedTo? test = none := rfl

@[simp] theorem addedTo?_addTestLink :
    (addTestLink record t target covers).addedTo? test =
      if t = test then some ⟨target, covers⟩ else none := rfl

@[simp] theorem addedTo?_removeTestLink :
    (removeTestLink record t target).addedTo? test = none := rfl

@[simp] theorem referenceFor?_addBackReference (m : Target) :
    (addBackReference file method reference).referenceFor? m =
      if method = m then some reference else none := rfl

@[simp] theorem referenceFor?_addTestLink (m : Target) :
    (addTestLink record t target covers).referenceFor? m = none := rfl

@[simp] theorem referenceFor?_removeTestLink (m : Target) :
    (removeTestLink record t target).referenceFor? m = none := rfl

@[simp] theorem removes_addBackReference :
    (addBackReference file method reference).removes test target = false := rfl

@[simp] theorem removes_addTestLink (gone : Target) :
    (addTestLink record t target covers).removes test gone = false := rfl

@[simp] theorem removes_removeTestLink (gone : Target) :
    (removeTestLink record t gone).removes test target = (t = test && gone = target : Bool) := rfl

end Constructors

end Action

/-- The two sides that validation compares. -/
structure Sides where
  registry : Registry
  production : Production.Index
  deriving DecidableEq, Repr

namespace Sides

/-- Carry out one action. A link goes to, or from, the first record of its test. -/
def enact (s : Sides) : Action → Sides
  | .addBackReference _ method test => { s with production := s.production.addReference method test }
  | .addTestLink _ test target covers =>
    { s with registry := s.registry.edit test (· ++ [⟨target, covers⟩]) }
  | .removeTestLink _ test target =>
    { s with registry := s.registry.edit test (·.filter (·.target ≠ target)) }

/-- Carry out actions one after the other. -/
def enactAll (s : Sides) (actions : List Action) : Sides := actions.foldl enact s

@[simp] theorem enactAll_nil (s : Sides) : s.enactAll [] = s := rfl

@[simp] theorem enactAll_cons (s : Sides) (a : Action) (actions : List Action) :
    s.enactAll (a :: actions) = (s.enact a).enactAll actions := rfl

/-! ## §5 What one action comes to -/

@[simp] theorem places_enact (s : Sides) (a : Action) :
    (s.enact a).registry.places = s.registry.places := by
  cases a <;> simp [enact]

theorem firstLinks_enact (s : Sides) (a : Action) {test : Text}
    (h : test ∈ s.registry.identifiers) :
    (s.enact a).registry.firstLinks test = a.onLinks test (s.registry.firstLinks test) := by
  cases a with
  | addBackReference file method reference => rfl
  | addTestLink record t target covers =>
    by_cases ht : t = test
    · subst ht
      simp [enact, Registry.firstLinks_edit_self _ h]
    · simp [enact, ht, Registry.firstLinks_edit_of_ne _ _ (Ne.symm ht)]
  | removeTestLink record t target =>
    by_cases ht : t = test
    · subst ht
      simp [enact, Registry.firstLinks_edit_self _ h]
    · simp [enact, ht, Registry.firstLinks_edit_of_ne _ _ (Ne.symm ht)]

@[simp] theorem laterLinks_enact (s : Sides) (a : Action) (test : Text) :
    (s.enact a).registry.laterLinks test = s.registry.laterLinks test := by
  cases a <;> simp [enact]

@[simp] theorem knowsClass_enact (s : Sides) (a : Action) (className : Text) :
    (s.enact a).production.knowsClass className = s.production.knowsClass className := by
  cases a <;> simp [enact]

theorem keys_enact (s : Sides) (a : Action) :
    (s.enact a).production.declarations.map Prod.fst
      = s.production.declarations.map Prod.fst := by
  cases a with
  | addBackReference file method reference =>
    simp [enact, Production.Index.declarations_addReference, Function.comp_def]
  | addTestLink => rfl
  | removeTestLink => rfl

theorem method?_enact (s : Sides) (a : Action) (target : Target) :
    (s.enact a).production.method? target =
      (s.production.method? target).map (·.extend (a.referenceFor? target).toList) := by
  cases a with
  | addBackReference file method reference =>
    rw [enact, Production.Index.method?_addReference]
    by_cases h : method = target
    · simp [h]
    · simp [h, Ne.symm h]
  | addTestLink => simp [enact]
  | removeTestLink => simp [enact]

/-! ## §6 What all actions come to -/

@[simp] theorem places_enactAll (s : Sides) (actions : List Action) :
    (s.enactAll actions).registry.places = s.registry.places := by
  induction actions generalizing s with
  | nil => rfl
  | cons a actions ih => rw [enactAll_cons, ih, places_enact]

@[simp] theorem knowsClass_enactAll (s : Sides) (actions : List Action) (className : Text) :
    (s.enactAll actions).production.knowsClass className
      = s.production.knowsClass className := by
  induction actions generalizing s with
  | nil => rfl
  | cons a actions ih => rw [enactAll_cons, ih, knowsClass_enact]

theorem keys_enactAll (s : Sides) (actions : List Action) :
    (s.enactAll actions).production.declarations.map Prod.fst
      = s.production.declarations.map Prod.fst := by
  induction actions generalizing s with
  | nil => rfl
  | cons a actions ih => rw [enactAll_cons, ih, keys_enact]

theorem method?_enactAll (s : Sides) (actions : List Action) (target : Target) :
    (s.enactAll actions).production.method? target =
      (s.production.method? target).map
        (·.extend (actions.filterMap (·.referenceFor? target))) := by
  induction actions generalizing s with
  | nil => simp
  | cons a actions ih =>
    rw [enactAll_cons, ih, method?_enact, Option.map_map]
    congr 1
    funext entry
    simp only [Function.comp_apply, Production.Entry.extend_extend, List.filterMap_cons]
    cases a.referenceFor? target <;> rfl

/-- The methods stay, each with the references added behind its own. -/
theorem methods_enactAll (s : Sides) (actions : List Action) :
    (s.enactAll actions).production.methods =
      s.production.methods.map fun (t, entry) =>
        (t, entry.extend (actions.filterMap (·.referenceFor? t))) :=
  Production.Index.methods_of_method?_eq _ (keys_enactAll s actions) (method?_enactAll s actions)

@[simp] theorem laterLinks_enactAll (s : Sides) (actions : List Action) (test : Text) :
    (s.enactAll actions).registry.laterLinks test = s.registry.laterLinks test := by
  induction actions generalizing s with
  | nil => rfl
  | cons a actions ih => rw [enactAll_cons, ih, laterLinks_enact]

theorem firstLinks_enactAll (s : Sides) (actions : List Action) {test : Text}
    (h : test ∈ s.registry.identifiers) :
    (s.enactAll actions).registry.firstLinks test =
      actions.foldl (fun links a => a.onLinks test links) (s.registry.firstLinks test) := by
  induction actions generalizing s with
  | nil => rfl
  | cons a actions ih =>
    have ha : test ∈ (s.enact a).registry.identifiers := by
      rw [Registry.identifiers_congr (places_enact s a)]
      exact h
    rw [enactAll_cons, ih _ ha, firstLinks_enact s a h, List.foldl_cons]

end Sides

/-- Actions of which none removes from a test what another adds may be carried out all at once: what
is removed first, what is added behind it. -/
theorem foldl_onLinks (test : Text) :
    ∀ (actions : List Action) (links : List Link),
      (∀ link ∈ actions.filterMap (·.addedTo? test),
        ∀ a ∈ actions, a.removes test link.target = false) →
      actions.foldl (fun links a => a.onLinks test links) links =
        links.filter (fun link => !actions.any (·.removes test link.target))
          ++ actions.filterMap (·.addedTo? test)
  | [], links, _ => by
      have hall : links.filter (fun _ => true) = links := List.filter_eq_self.mpr (by simp)
      simpa using hall.symm
  | a :: actions, links, h => by
      have hrest := foldl_onLinks test actions (a.onLinks test links) (by
        intro link hlink b hb
        refine h link ?_ b (List.mem_cons_of_mem _ hb)
        rw [List.filterMap_cons]
        split
        · exact hlink
        · exact List.mem_cons_of_mem _ hlink)
      rw [List.foldl_cons, hrest, List.filterMap_cons]
      cases a with
      | addBackReference file method reference => simp
      | addTestLink record t target covers =>
        by_cases ht : t = test
        · have hkept : actions.any (·.removes test target) = false := by
            rw [List.any_eq_false]
            intro b hb
            have := h ⟨target, covers⟩ (by simp [ht]) b (List.mem_cons_of_mem _ hb)
            simpa using this
          simp [ht, hkept]
        · simp [ht]
      | removeTestLink record t target =>
        by_cases ht : t = test
        · simp [ht, List.filter_filter, Bool.and_comm, eq_comm]
        · simp [ht]

end Crosslink
