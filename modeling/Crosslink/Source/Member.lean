import Crosslink.Source.Attribute

/-!
# Classes and their methods

A shallow reading of the declarations in a file: its classes (traits and enumerations among them)
and the methods in their bodies, each with its attributes, modifiers and documentation comment.
Bodies of methods are passed over whole, so that nothing in them is taken for a member.
-/

namespace Crosslink.Source

/-- A method declared in a class body. -/
structure Method where
  name : Text
  nameSpan : Span
  /-- Where the first attribute group, modifier or the word `function` begins. -/
  start : Nat
  /-- Where the first modifier or the word `function` begins. -/
  headStart : Nat
  /-- Where the body, or the semicolon in its place, ends. -/
  stop : Nat
  attributes : List AttributeGroup
  doc : Option Span
  /-- The modifiers in small letters, in the order of the source. -/
  modifiers : List Text
  deriving DecidableEq, Repr

namespace Method

/-- The whole declaration. -/
def span (m : Method) : Span := ⟨m.start, m.stop⟩

/-- A method is public unless it is declared otherwise. -/
def isPublic (m : Method) : Bool :=
  !m.modifiers.any fun w => w == ("private" : Text) || w == ("protected" : Text)

/-- True when the method is declared abstract. -/
def isAbstract (m : Method) : Bool := m.modifiers.contains ("abstract" : Text)

end Method

/-- A class, trait or enumeration. -/
structure DeclaredClass where
  /-- The short name, as declared. -/
  name : Text
  /-- From the keyword to the closing brace. -/
  span : Span
  methods : List Method
  deriving DecidableEq, Repr

/-- The words that may stand before a member. -/
def modifierWords : List Text :=
  ["public", "protected", "private", "static", "final", "abstract", "readonly"]

/-- The words that declare a class. -/
def classWords : List Text := ["class", "trait", "enum"]

/-- What has been read of the member that is coming. -/
structure Pending where
  attributes : List AttributeGroup := []
  start : Option Nat := none
  headStart : Option Nat := none
  modifiers : List Text := []
  /-- Where the member before it ends. -/
  boundary : Nat

namespace Pending

/-- Nothing of the next member has been read, and the one before it ends here. -/
def fresh (boundary : Nat) : Pending := { boundary }

/-- Take in a group of attributes. -/
def group (p : Pending) (g : AttributeGroup) : Pending :=
  { p with start := p.start <|> some g.span.start, attributes := p.attributes ++ [g] }

/-- Take in the place of a modifier or of the word `function`. -/
def keyword (p : Pending) (place : Nat) : Pending :=
  { p with start := p.start <|> some place, headStart := p.headStart <|> some place }

end Pending

/-- What a step of the walk through a class body leads to. -/
inductive Step where
  /-- Go on at an index. -/
  | go (next : Nat) (pending : Pending)
  /-- Go on at an index after a method. -/
  | found (next : Nat) (pending : Pending) (method : Method)
  /-- No method can follow. -/
  | done

namespace TokenSequence

/-- The name and the index of the closing parenthesis of the method whose word `function` is the
token `i`. -/
def signature (l : TokenSequence) (i : Nat) : Option (Token × Nat) := do
  let j := if (l.tokens[i + 1]?).any (·.text == ['&']) then i + 2 else i + 1
  let name ← (l.tokens[j]?).filter (·.kind = .name)
  let opener ← (l.tokens[j + 1]?).filter (·.kind = .openParen)
  some (name, ← opener.partner)

/-- Take in the method whose word `function` is the token `t` at `i`, in a class body closed by the
token `close`. -/
def methodStep (l : TokenSequence) (close : Nat) (p : Pending) (i : Nat) (t : Token) : Step :=
  let p := p.keyword t.span.start
  match l.signature i with
  | none => .go (i + 1) p
  | some (name, params) =>
    match l.findKind [.openBrace, .semicolon] close (params + 1) with
    | none => .done
    | some body =>
      let last := if l.isKind body .openBrace then (l.partnerAt body).getD body else body
      let stop := l.stopAt last
      let start := p.start.getD t.span.start
      .found (last + 1) (.fresh stop)
        { name := name.text
          nameSpan := name.span
          start
          headStart := p.headStart.getD t.span.start
          stop
          attributes := p.attributes
          doc := l.docBetween p.boundary start
          modifiers := p.modifiers }

/-- Take in what begins at the token `t` at `i` of a class body closed by the token `close`. -/
def memberStep (l : TokenSequence) (source : Text) (close : Nat) (p : Pending) (i : Nat)
    (t : Token) : Step :=
  if t.kind = .attrOpen then
    match AttributeGroup.parse l source i with
    | some g => .go g.next (p.group g)
    | none => .go (i + 1) p
  else if t.isOneOf modifierWords then
    .go (i + 1) { p.keyword t.span.start with modifiers := p.modifiers ++ [Text.lower t.text] }
  else if t.isWord "function" then l.methodStep close p i t
  else if t.kind = .semicolon then .go (i + 1) (.fresh t.span.stop)
  else if t.kind = .openBrace then
    let last := t.partner.getD i
    .go (last + 1) (.fresh (l.stopAt last))
  else if t.kind = .openParen ∨ t.kind = .openBracket then .go (t.partner.getD i + 1) p
  else .go (i + 1) p

/-- The methods from the token `i` on in a class body closed by the token `close`. Every step goes
on to a later token. -/
def methodsFrom (l : TokenSequence) (source : Text) (close : Nat) (p : Pending) (i : Nat) :
    List Method :=
  if i < close then
    match l.tokens[i]? with
    | none => []
    | some t =>
      match l.memberStep source close p i t with
      | .go next p => methodsFrom l source close p (max next (i + 1))
      | .found next p m => m :: methodsFrom l source close p (max next (i + 1))
      | .done => []
  else []
termination_by close - i

/-- True when the token `t` at `i` begins the declaration of a class: one of its words that is no
constant, member, function name or anonymous class. -/
def beginsClass (l : TokenSequence) (i : Nat) (t : Token) : Bool :=
  t.isOneOf classWords &&
    !(i ≠ 0 && (l.tokens[i - 1]?).any fun before =>
      before.kind = .doubleColon || before.kind = .arrow
        || before.isOneOf ["new", "function", "const"])

/-- The classes declared from the token `i` on. -/
def classesFrom (l : TokenSequence) (source : Text) (i : Nat) : List DeclaredClass :=
  match _h : l.tokens[i]? with
  | none => []
  | some t =>
    let name := (l.tokens[i + 1]?).filter (·.kind = .name)
    match l.beginsClass i t, name with
    | true, some name =>
      match l.findKind [.openBrace, .semicolon, .openParen] l.tokens.size (i + 2) with
      | none => []
      | some body =>
        match if l.isKind body .openBrace then l.partnerAt body else none with
        | some close =>
          ⟨name.text, ⟨t.span.start, l.stopAt close⟩,
            l.methodsFrom source close (.fresh (l.stopAt body)) (body + 1)⟩
            :: classesFrom l source (max (close + 1) (i + 1))
        | none => classesFrom l source (max (body + 1) (i + 1))
    | _, _ => classesFrom l source (i + 1)
termination_by l.tokens.size - i
decreasing_by
  all_goals
    have hi : i < l.tokens.size := (Array.getElem?_eq_some_iff.mp ‹_›).1
    omega

/-- The classes declared in a file. -/
def classes (l : TokenSequence) (source : Text) : List DeclaredClass := l.classesFrom source 0

end TokenSequence

end Crosslink.Source
