import Crosslink.Source.TokenSequence

/-!
# Namespace and imports

A file declares a namespace and imports classes under aliases. `Imports.ofTokens` collects both,
`resolve` tells what a class name written in the file stands for, and `referenceTo` how to write a
class there.
-/

namespace Crosslink.Source

/-- The namespace and the class imports of a file. -/
structure Imports where
  /-- The first namespace declared, without a leading backslash. -/
  ns : Text := []
  /-- Aliases with the full names they stand for, in the order of the file. -/
  uses : List (Text × Text) := []
  deriving DecidableEq, Repr

/-- A name without its leading backslashes. -/
def relativeName (name : Text) : Text := name.dropWhile (· = '\\')

namespace Imports

/-! ## Collecting -/

/-- The imports listed between the tokens `i` and `stop`, their names put after `lead`. A name
followed by the word `as` takes the name after that word for its alias. -/
def listed (l : TokenSequence) (lead : Text) (stop i : Nat) : List (Text × Text) :=
  if i < stop then
    match l.tokens[i]? with
    | none => []
    | some t =>
      if t.kind = .name then
        let full := lead ++ relativeName t.text
        let short := Text.lastSegment ['\\'] full
        match l.tokens[i + 1]? with
        | some word =>
          if word.isWord "as" then
            let given := match l.tokens[i + 2]? with
              | some a => if a.kind = .name then a.text else short
              | none => short
            (given, full) :: listed l lead stop (i + 3)
          else (short, full) :: listed l lead stop (i + 1)
        | none => (short, full) :: listed l lead stop (i + 1)
      else listed l lead stop (i + 1)
  else []
termination_by stop - i

/-- The name that the group of imports beginning at `i` shares: a name, a lone backslash and an
opening brace. -/
def groupName (l : TokenSequence) (i : Nat) : Option Text :=
  match l.tokens[i]?, l.tokens[i + 1]?, l.tokens[i + 2]? with
  | some name, some sep, some brace =>
    if name.kind = .name && sep.text == ['\\'] && brace.kind = .openBrace then
      some (relativeName name.text ++ "\\")
    else none
  | _, _, _ => none

/-- The imports of the statement whose word `use` stands before the token `i`, and the index after
the statement. The list of a closure is passed over, and functions and constants are no classes. -/
def statement (l : TokenSequence) (i : Nat) : List (Text × Text) × Nat :=
  let stop := (l.findKind [.semicolon] l.tokens.size i).getD l.tokens.size
  if l.isKind i .openParen then ([], ((l.partnerAt i).getD i) + 1)
  else if (l.tokens[i]?).any (·.isOneOf ["function", "const"]) then ([], stop + 1)
  else match groupName l i with
    | some lead => (listed l lead stop (i + 3), stop + 1)
    | none => (listed l [] stop i, stop + 1)

/-- What has been collected, and for each brace still open whether it is the body of a namespace,
innermost first. -/
structure Collected where
  imports : Imports := {}
  named : Bool := false
  braces : List Bool := []

/-- Take in a namespace declaration with this name, if it has one, whose body a brace opens if
`braced` is set. The first name given is kept. -/
def Collected.declare (s : Collected) (name : Option Text) (braced : Bool) : Collected :=
  let s := match name with
    | some n =>
      if s.named then s
      else { s with imports := { s.imports with ns := relativeName n }, named := true }
    | none => s
  if braced then { s with braces := true :: s.braces } else s

/-- Take in what begins at the token `i`; the result holds the index to go on at. -/
def Collected.step (l : TokenSequence) (s : Collected) (i : Nat) (t : Token) : Collected × Nat :=
  if t.kind = .openBrace then ({ s with braces := false :: s.braces }, i + 1)
  else if t.kind = .closeBrace then ({ s with braces := s.braces.tail }, i + 1)
  else if s.braces.isEmpty && t.isWord "namespace" then
    let name := (l.tokens[i + 1]?).filter (·.kind = .name)
    let next := if name.isSome then i + 2 else i + 1
    let braced := l.isKind next .openBrace
    (s.declare (name.map Token.text) braced, if braced then next + 1 else next)
  else if s.braces.all id && t.isWord "use" then
    let (uses, next) := statement l (i + 1)
    ({ s with imports := { s.imports with uses := s.imports.uses ++ uses } }, max next (i + 1))
  else (s, i + 1)

theorem Collected.lt_step (l : TokenSequence) (s : Collected) (i : Nat) (t : Token) :
    i < (s.step l i t).2 := by
  unfold step
  split
  · simp
  · split
    · simp
    · split
      · simp only
        split <;> split <;> omega
      · split
        · simp only
          omega
        · simp

/-- Collect from the token `i` on. -/
def collect (l : TokenSequence) (s : Collected) (i : Nat) : Imports :=
  match _h : l.tokens[i]? with
  | none => s.imports
  | some t => collect l (s.step l i t).1 (s.step l i t).2
termination_by l.tokens.size - i
decreasing_by
  have hi : i < l.tokens.size := (Array.getElem?_eq_some_iff.mp ‹_›).1
  have := Collected.lt_step l s i t
  omega

/-- The namespace and the class imports of a file. -/
def ofTokens (l : TokenSequence) : Imports := collect l {} 0

/-! ## Using -/

/-- The full name of the class that a name written in the file stands for. -/
def resolve (imports : Imports) (name : Text) : Text :=
  match name with
  | '\\' :: full => full
  | _ =>
    let (first, rest) : Text × Option Text := match Text.splitFirst ['\\'] name with
      | some (first, rest) => (first, some rest)
      | none => (name, none)
    match imports.uses.find? fun u => Text.sameLetters u.1 first with
    | some (_, full) =>
      match rest with
      | some rest => full ++ "\\" ++ rest
      | none => full
    | none => if imports.ns = [] then name else imports.ns ++ "\\" ++ name

/-- The alias a class is imported under. -/
def localName (imports : Imports) (className : Text) : Option Text :=
  (imports.uses.find? fun u => Text.sameLetters u.2 (relativeName className)).map Prod.fst

/-- How to write a class in the file: by its alias, by its short name when it lives in the file's
namespace and no alias hides it, and otherwise in full. -/
def referenceTo (imports : Imports) (className : Text) : Text :=
  let full := relativeName className
  match imports.localName full with
  | some given => given
  | none =>
    let (ns, short) := (Text.splitLast ['\\'] full).getD ([], full)
    if ns = imports.ns && !(imports.uses.any fun u => Text.sameLetters u.1 short) then short
    else '\\' :: full

end Imports

end Crosslink.Source
