import Crosslink.EditError
import Crosslink.Edit
import Crosslink.FluentChain.Reader

/-!
# Editing chained links

Links are added as further calls after the last that declares links, laid out like it, and removed
argument by argument, a call going as a whole when it loses all. A link without coverage that is to
have it moves to a covering call, or its call is renamed when all its arguments do.
-/

namespace Crosslink.FluentChain

open Source

/-- Find a recorded test in the current text. -/
def locate (source : Text) (recorded : TestCase) : Except EditError (File × Test) := do
  let file ← (File.read source).mapError .malformed
  match (TestCase.findAgain? (file.tests.map Test.case) recorded).bind (file.tests[·]?) with
  | some t => return (file, t)
  | none => throw (.testNotFound recorded.name)

/-- The blanks to put before a new call: those before the last call that declares links, or before
the first call of all. -/
def callGap (source : Text) (t : Test) : Text :=
  match t.linkCalls.getLast? <|> t.chain.head? with
  | some c =>
    let gap := c.gap.slice source
    if gap.all isBlank then gap else []
  | none => []

/-- A text between single quotes, with a backslash before each quote in it. -/
def quoted (text : Text) : Text := "'" ++ Text.replace '\'' "\\'" text ++ "'"

/-- The argument that names a target: its class by its alias where it has one, and its canonical form
between quotes otherwise. -/
def writeArgument (imports : Imports) (target : Target) : Text :=
  match imports.localName target.className with
  | some given =>
    match target.method with
    | some m => given ++ "::class.'" ++ memberSeparator ++ m ++ "'"
    | none => given ++ "::class"
  | none => quoted target.canonical

/-- The call that declares one link. -/
def writeCall (imports : Imports) (target : Target) (covers : Bool) : Text :=
  "->" ++ (if covers then coveringCall else linkingCall) ++ "("
    ++ writeArgument imports target ++ ")"

/-- The declared links of a test that are to get coverage: those among the wanted targets that no
call declares with coverage. -/
def upgraded (t : Test) (wanted : List Target) (covers : Bool) : List Target :=
  wanted.filter fun target =>
    covers && t.linkCalls.any (·.targets.contains (some target))
      && !(t.linkCalls.any fun c => c.covers && c.targets.contains (some target))

/-- Which arguments of a call name one of these targets. -/
def marks (targets : List Target) (c : Call) : List Bool :=
  c.targets.map fun t => t.any targets.contains

/-- True when all arguments of a call name one of these targets, and it has some. -/
def allMarked (targets : List Target) (c : Call) : Bool :=
  (marks targets c).any id && (marks targets c).all id

/-- What taking the upgraded links out of a call comes to. -/
def upgradeCall (targets : List Target) (c : Call) : List Splice :=
  if allMarked targets c then [.replace c.nameSpan coveringCall]
  else if (marks targets c).any id then
    Edit.dropItems (c.arguments.map Argument.span) (marks targets c)
  else []

/-- The targets for which a call has to be added: the wanted ones that no call declares, and the
upgraded ones that no renamed call declares. -/
def appended (t : Test) (wanted upgraded : List Target) : List Target :=
  wanted.filter fun target =>
    if t.linkCalls.any (·.targets.contains (some target)) then
      upgraded.contains target
        && !(t.linkCalls.any fun c => c.targets.contains (some target) && allMarked upgraded c)
    else true

/-- The changes that add links to a test. -/
def injectSplices (source : Text) (file : File) (t : Test) (targets : List Target)
    (covers : Bool) : List Splice :=
  let wanted := targets.eraseDups
  let upgraded := upgraded t wanted covers
  let calls := (appended t wanted upgraded).flatMap fun target =>
    callGap source t ++ writeCall file.imports target covers
  t.linkCalls.flatMap (upgradeCall upgraded)
    ++ (if calls = [] then [] else [.insert t.case.declarationPoint calls])

/-- Add links to a test, those it has left alone but for the coverage they lack. -/
def inject (source : Text) (recorded : TestCase) (targets : List Text) (covers : Bool) :
    Except EditError Text := do
  let (file, t) ← locate source recorded
  let targets ← parseTargets targets
  applyEdit source (injectSplices source file t targets covers)

/-- What taking links out of a call comes to. -/
def removeFromCall (targets : List Target) (c : Call) : List Splice :=
  if allMarked targets c then [.delete ⟨c.gap.start, c.stop⟩]
  else if (marks targets c).any id then
    Edit.dropItems (c.arguments.map Argument.span) (marks targets c)
  else []

/-- Remove links from a test. -/
def remove (source : Text) (recorded : TestCase) (targets : List Text) :
    Except EditError Text := do
  let (_, t) ← locate source recorded
  let targets ← parseTargets targets
  applyEdit source (t.linkCalls.flatMap (removeFromCall targets))

end Crosslink.FluentChain
