import Crosslink.BackReference
import Crosslink.Source.TokenSequence
import Crosslink.Source.Expression
import Crosslink.Source.Imports

/-!
# Attributes

Attributes stand in groups, `#[A(…), B]`, before what they describe. Some of them carry links:
`Links` and `LinksAndCovers` name the target of a test, and `TestedBy` names a test of a method.
-/

namespace Crosslink.Source

/-- The attribute that links a test to its target. -/
def linksName : Text := "Links"

/-- The attribute that links a test to a target it covers. -/
def linksAndCoversName : Text := "LinksAndCovers"

/-- The attribute that names a test of a production method. -/
def testedByName : Text := "TestedBy"

/-- The attribute that marks a method as a test. -/
def testName : Text := "Test"

/-- One attribute of a group. -/
structure Attribute where
  /-- The name as written. -/
  name : Text
  nameSpan : Span
  /-- From the name to the closing parenthesis. -/
  span : Span
  arguments : List Argument
  deriving DecidableEq, Repr

namespace Attribute

/-- The last segment of the name. -/
def shortName (a : Attribute) : Text := Text.lastSegment ['\\'] a.name

/-- True when the last segment of the name is this one, the case of ASCII letters left out of
account. -/
def isNamed (a : Attribute) (name : Text) : Bool := Text.sameLetters a.shortName name

/-- True for an attribute that links a test. -/
def isLink (a : Attribute) : Bool := a.isNamed linksName || a.isNamed linksAndCoversName

/-- The class and the method that arguments name, reading on from the argument number
`position`. The argument labelled `method`, or the second one when it has no label, gives the
method, and the first of the others the class; an argument that cannot be read spoils all. -/
def gather (imports : Imports) (className method : Option Text) (position : Nat) :
    List Argument → Option (Option Text × Option Text)
  | [] => some (className, method)
  | a :: rest =>
    match Expression.parse a.text with
    | .error _ => none
    | .ok e =>
      let isMethod := match e.label with
        | some label => Text.sameLetters label "method"
        | none => position = 1
      if isMethod then
        match e.literal? with
        | some m => gather imports className (some m) (position + 1) rest
        | none => none
      else
        let value := relativeName (e.resolve imports.resolve)
        gather imports (className <|> some value) method (position + 1) rest

/-- The class and the method an attribute names; an empty method is none. -/
def classArguments (a : Attribute) (imports : Imports) : Option (Text × Option Text) := do
  let (className, method) ← gather imports none none 0 a.arguments
  return (← className, method.filter (· ≠ []))

/-- The target an attribute names. -/
def target (a : Attribute) (imports : Imports) : Option Target := do
  match ← a.classArguments imports with
  | (className, some method) => some (.ofMethod className method)
  | (className, none) => (Target.parse className).toOption

/-- The test an attribute names. -/
def testedBy (a : Attribute) (imports : Imports) : Option BackReference := do
  let (className, method) ← a.classArguments imports
  if className = [] then none
  else match method with
    | some method => some (.ofMember className method)
    | none =>
      match Text.splitFirst memberSeparator className with
      | some (container, member) =>
        if member = [] then some (.ofContainer className) else some (.ofMember container member)
      | none => some (.ofContainer className)

end Attribute

/-- A group of attributes. -/
structure AttributeGroup where
  /-- From the opening to the closing bracket. -/
  span : Span
  attributes : List Attribute
  /-- The index of the token after the closing bracket. -/
  next : Nat
  deriving DecidableEq, Repr

namespace AttributeGroup

/-- The index of the first comma from `i` on, before `close` and outside brackets, or an index from
`close` on when there is none. -/
def nextComma (l : TokenSequence) (close i : Nat) : Nat :=
  if i < close && !l.isKind i .comma then nextComma l close (l.lastOf i + 1) else i
termination_by close - i
decreasing_by
  rename_i h
  simp only [Bool.and_eq_true, decide_eq_true_eq] at h
  have := l.le_lastOf i
  omega

theorem le_nextComma (l : TokenSequence) (close i : Nat) : i ≤ nextComma l close i := by
  fun_induction nextComma l close i with
  | case1 i h ih => have := l.le_lastOf i; omega
  | case2 i h => exact Nat.le_refl i

/-- The attribute whose name is the token `t` at index `i`, and the index after it. -/
def attributeAt (l : TokenSequence) (source : Text) (i : Nat) (t : Token) : Attribute × Nat :=
  if l.isKind (i + 1) .openParen then
    let arguments := l.arguments source (i + 1)
    match l.partnerAt (i + 1) with
    | some p => (⟨t.text, t.span, ⟨t.span.start, l.stopAt p⟩, arguments⟩, max (p + 1) (i + 1))
    | none => (⟨t.text, t.span, t.span, arguments⟩, i + 1)
  else (⟨t.text, t.span, t.span, []⟩, i + 1)

theorem lt_attributeAt (l : TokenSequence) (source : Text) (i : Nat) (t : Token) :
    i < (attributeAt l source i t).2 := by
  unfold attributeAt
  split
  · simp only
    split
    · simp only; omega
    · simp
  · simp

/-- The attributes between the tokens `i` and `close`. -/
def attributesFrom (l : TokenSequence) (source : Text) (close i : Nat) : List Attribute :=
  if i < close then
    match l.tokens[i]? with
    | none => []
    | some t =>
      if t.kind = .name then
        let r := attributeAt l source i t
        r.1 :: attributesFrom l source close (nextComma l close r.2 + 1)
      else attributesFrom l source close (i + 1)
  else []
termination_by close - i
decreasing_by
  · have h1 := lt_attributeAt l source i t
    have h2 := le_nextComma l close (attributeAt l source i t).2
    omega
  · omega

/-- The group opened by the token at an index; nothing when that opens none. -/
def parse (l : TokenSequence) (source : Text) (opener : Nat) : Option AttributeGroup := do
  let first ← l.tokens[opener]?
  if first.kind ≠ .attrOpen then none
  else
    let close ← first.partner
    some ⟨⟨first.span.start, l.stopAt close⟩, attributesFrom l source close (opener + 1), close + 1⟩

/-- True when some attribute of the group links a test. -/
def holdsLink (g : AttributeGroup) : Bool := g.attributes.any Attribute.isLink

/-- True when some attribute of the group has this name. -/
def has (g : AttributeGroup) (name : Text) : Bool := g.attributes.any (·.isNamed name)

end AttributeGroup

end Crosslink.Source
