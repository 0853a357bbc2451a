import Crosslink.TestCase
import Crosslink.Path
import Crosslink.Source.Attribute

/-!
# Tests with chained links

A test of this style is a call of `test` or `it`, perhaps inside calls of `describe`, and its links
are calls chained to it:

    test('creates a user', function () { … })
        ->linksAndCovers(UserService::class.'::create')
        ->links('App\Services\Mailer::send');

The name of a test is made of the titles of the groups around it and its own, and its identifier of
their slugs.
-/

namespace Crosslink.FluentChain

open Source

/-- The chained call that declares links. -/
def linkingCall : Text := "links"

/-- The chained call that declares links with coverage. -/
def coveringCall : Text := "linksAndCovers"

/-- What stands between the slugs of nested titles in an identifier. -/
def slugSeparator : Text := "__"

/-- One call chained to a test. -/
structure Call where
  name : Text
  nameSpan : Span
  /-- The end of the token before the call's arrow, and the arrow's start. -/
  gap : Span
  /-- The end of the closing parenthesis. -/
  stop : Nat
  arguments : List Argument
  /-- The target each argument names, if it names one. -/
  targets : List (Option Target)
  deriving DecidableEq, Repr

namespace Call

/-- True for a call that declares links. -/
def isLink (c : Call) : Bool := c.name == linkingCall || c.name == coveringCall

/-- True for a call that declares links with coverage. -/
def covers (c : Call) : Bool := c.name == coveringCall

/-- The links a call declares. -/
def links (c : Call) : List Link := c.targets.filterMap fun t => t.map fun t => ⟨t, c.covers⟩

end Call

/-- A test and the calls chained to it. -/
structure Test where
  case : TestCase
  chain : List Call
  deriving DecidableEq, Repr

namespace Test

/-- The chained calls that declare links. -/
def linkCalls (t : Test) : List Call := t.chain.filter Call.isLink

end Test

/-- A file of tests, with the imports that give its class names their meaning. -/
structure File where
  imports : Imports
  tests : List Test
  deriving DecidableEq, Repr

/-- The target an argument names. -/
def argumentTarget (imports : Imports) (a : Argument) : Option Target :=
  match Expression.parse a.text with
  | .ok e => (Target.parse (e.resolve imports.resolve)).toOption
  | .error _ => none

/-- The call whose arrow is the token at an index, and the index of its closing parenthesis. -/
def callAt (l : TokenSequence) (source : Text) (imports : Imports) (i : Nat) :
    Option (Call × Nat) := do
  let arrow ← (l.tokens[i]?).filter (·.kind = .arrow)
  let name ← (l.tokens[i + 1]?).filter (·.kind = .name)
  let opener ← (l.tokens[i + 2]?).filter (·.kind = .openParen)
  let close ← opener.partner
  let arguments := l.arguments source (i + 2)
  some ({ name := name.text
          nameSpan := name.span
          gap := ⟨if i = 0 then arrow.span.start else l.stopAt (i - 1), arrow.span.start⟩
          stop := l.stopAt close
          arguments
          targets := arguments.map (argumentTarget imports) }, close)

/-- The calls chained to what ends before the token at an index, at most `fuel` of them. -/
def chainFrom (l : TokenSequence) (source : Text) (imports : Imports) : Nat → Nat → List Call
  | 0, _ => []
  | fuel + 1, i =>
    match callAt l source imports i with
    | some (c, close) => c :: chainFrom l source imports fuel (close + 1)
    | none => []

/-- The words that call a test or a group of tests. -/
inductive Keyword where
  | test
  | it
  | describe
  deriving DecidableEq, Repr

namespace Keyword

/-- The keyword a token is. -/
def ofToken (t : Token) : Option Keyword :=
  if t.isWord "test" then some .test
  else if t.isWord "it" then some .it
  else if t.isWord "describe" then some .describe
  else none

end Keyword

/-- The keyword that the token `t` at `i` calls, with the index of the closing parenthesis. A
member, a function's own name and the class of a new object call nothing. -/
def keywordCall (l : TokenSequence) (i : Nat) (t : Token) : Option (Keyword × Nat) := do
  let keyword ← Keyword.ofToken t
  let before := if i = 0 then none else l.tokens[i - 1]?
  if before.any fun b => b.kind = .arrow || b.kind = .doubleColon || b.isOneOf ["function", "new"]
  then none
  else
    let opener ← (l.tokens[i + 1]?).filter (·.kind = .openParen)
    some (keyword, ← opener.partner)

/-- The title given by the first argument of a call: the text it stands for, or the argument as
written when it stands for none. -/
def titleOf (arguments : List Argument) : Text :=
  match arguments with
  | [] => []
  | a :: _ =>
    match Expression.parse a.text with
    | .ok e => e.literal?.getD a.text
    | .error _ => a.text

/-- The test called by the token `t` at `i`, whose closing parenthesis is the token `close`, inside
the groups with these titles. -/
def testAt (l : TokenSequence) (source : Text) (imports : Imports) (groups : List Text)
    (keyword : Keyword) (i close : Nat) (t : Token) : Test :=
  let title := titleOf (l.arguments source (i + 1))
  let own := if keyword = .it then "it " ++ title else title
  let titles := groups ++ [own]
  let chain := chainFrom l source imports l.tokens.size (close + 1)
  let links := chain.filter Call.isLink
  let callStop := l.stopAt close
  { case :=
      { name := Text.join titleSeparator titles
        identifier := Text.join slugSeparator (titles.map slug)
        span := ⟨t.span.start, (chain.getLast?.map Call.stop).getD callStop⟩
        declarationPoint := (links.getLast?.map Call.stop).getD callStop
        links := links.flatMap Call.links
        style := .fluentChain }
    chain }

/-- The tests called from the token `i` on. `groups` holds the titles of the groups around it,
outermost first, with the index of the parenthesis that closes each. -/
def testsFrom (l : TokenSequence) (source : Text) (imports : Imports) (groups : List (Text × Nat))
    (i : Nat) : List Test :=
  match _h : l.tokens[i]? with
  | none => []
  | some t =>
    let groups := groups.filter fun g => i ≤ g.2
    match keywordCall l i t with
    | none => testsFrom l source imports groups (i + 1)
    | some (.describe, close) =>
      let title := titleOf (l.arguments source (i + 1))
      testsFrom l source imports (groups ++ [(title, close)]) (i + 2)
    | some (keyword, close) =>
      testAt l source imports (groups.map Prod.fst) keyword i close t
        :: testsFrom l source imports groups (i + 2)
termination_by l.tokens.size - i
decreasing_by
  all_goals
    have hi : i < l.tokens.size := (Array.getElem?_eq_some_iff.mp ‹_›).1
    omega

/-- Read a file of tests. -/
def File.read (source : Text) : Except SyntaxError File := do
  let l ← tokenize source
  let imports := Imports.ofTokens l
  return ⟨imports, testsFrom l source imports [] 0⟩

/-- The container of the tests in a file: the slug of its name without the extension `.php`. -/
def containerOf (path : Path) : Text :=
  slug (Text.dropSuffix ".php" (path.fileName.getD []))

/-- The test cases of a source text. -/
def readTests (source : Text) : Except SyntaxError (List TestCase) :=
  (File.read source).map fun f => f.tests.map Test.case

/-- The test cases of the file at a path, keyed by the container the path gives. -/
def readTestsAt (path : Path) (source : Text) : Except SyntaxError (List TestCase) :=
  (readTests source).map fun tests => tests.map fun t =>
    { t with identifier := containerOf path ++ memberSeparator ++ t.identifier }

end Crosslink.FluentChain
