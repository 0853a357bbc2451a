import Crosslink.Text.Blank
import Crosslink.Text.Letter
import Crosslink.Text.Basic

/-!
# Argument expressions

A link names its target by a constant expression: quoted texts and `Name::class` constants joined
by dots, after an optional label.

    argument := [ident ":"] atom ("." atom)*
    atom     := 'text' | "text" | ["\"] ident ("\" ident)* "::" "class"

Blanks may stand around the dots, the double colon and the label's colon, and around the whole.
A reader takes what it needs from the front of a text and returns the rest.
-/

namespace Crosslink.Source

/-- One operand of an argument. -/
inductive Atom where
  /-- A quoted text, its escapes decoded. -/
  | literal (text : Text)
  /-- The class constant of a name, given as written. -/
  | classConstant (name : Text)
  deriving DecidableEq, Repr

/-- An argument: an optional label and the operands put together. -/
structure Expression where
  label : Option Text
  atoms : List Atom
  deriving DecidableEq, Repr

/-- An argument that is no constant expression of this form. -/
structure ArgumentError where
  text : Text
  deriving DecidableEq, Repr

/-- The error in words. -/
def ArgumentError.message (e : ArgumentError) : Text :=
  "unsupported argument expression '" ++ e.text ++ "'"

namespace Expression

/-- The value of the expression when every operand is a quoted text. -/
def literal? (e : Expression) : Option Text :=
  e.atoms.foldr (fun atom rest =>
    match atom with
    | .literal t => rest.map (t ++ ·)
    | .classConstant _ => none) (some [])

/-- The value of the expression, given what a class name stands for. -/
def resolve (classNamed : Text → Text) (e : Expression) : Text :=
  e.atoms.flatMap fun
    | .literal t => t
    | .classConstant name => classNamed name

/-- True when the expression is one class constant. -/
def isBareClass (e : Expression) : Bool :=
  match e.atoms with
  | [.classConstant _] => true
  | _ => false

/-! ## Readers -/

/-- True for the blanks that may stand inside an argument. -/
def isGap (c : Char) : Bool := c = ' ' || c = '\t' || c = '\r' || c = '\n'

/-- The text after its leading blanks. -/
def skipGap (text : Text) : Text := text.dropWhile isGap

/-- True for the characters of an identifier. -/
def isIdentChar (c : Char) : Bool := isAlphanumeric c || c = '_'

/-- Read an identifier: letters, digits and underscores, not beginning with an ASCII digit. -/
def readIdent (text : Text) : Option (Text × Text) :=
  match text.takeWhile isIdentChar with
  | [] => none
  | c :: cs => if c.isDigit then none else some (c :: cs, text.dropWhile isIdentChar)

/-- Read a label: an identifier and a colon that no second colon follows. -/
def readLabel (text : Text) : Option (Text × Text) :=
  match readIdent text with
  | none => none
  | some (ident, rest) =>
    match skipGap rest with
    | ':' :: ':' :: _ => none
    | ':' :: rest => some (ident, skipGap rest)
    | _ => none

/-- Read the rest of a text in single quotes. A backslash stands for itself, except that it may
stand before a backslash or a quote to mean that. -/
def readSingle : Text → Option (Text × Text)
  | [] => none
  | '\\' :: '\\' :: cs => (readSingle cs).map fun (t, rest) => ('\\' :: t, rest)
  | '\\' :: '\'' :: cs => (readSingle cs).map fun (t, rest) => ('\'' :: t, rest)
  | '\'' :: cs => some ([], cs)
  | c :: cs => (readSingle cs).map fun (t, rest) => (c :: t, rest)

/-- What a backslash and a character mean in double quotes. -/
def unescape (c : Char) : Text :=
  if c = '\\' || c = '"' || c = '$' then [c]
  else if c = 'n' then ['\n']
  else if c = 't' then ['\t']
  else ['\\', c]

/-- Read the rest of a text in double quotes. A dollar sign would begin an interpolation and is
refused. -/
def readDouble : Text → Option (Text × Text)
  | [] => none
  | ['\\'] => none
  | '\\' :: c :: cs => (readDouble cs).map fun (t, rest) => (unescape c ++ t, rest)
  | '"' :: cs => some ([], cs)
  | '$' :: _ => none
  | c :: cs => (readDouble cs).map fun (t, rest) => (c :: t, rest)

theorem length_readIdent {text ident rest : Text} (h : readIdent text = some (ident, rest)) :
    rest.length < text.length := by
  unfold readIdent at h
  split at h
  · cases h
  · rename_i c cs hc
    split at h
    · cases h
    · simp only [Option.some.injEq, Prod.mk.injEq] at h
      have hlen : (text.takeWhile isIdentChar).length + (text.dropWhile isIdentChar).length
          = text.length := by
        rw [← List.length_append, List.takeWhile_append_dropWhile]
      rw [hc, h.2] at hlen
      simp only [List.length_cons] at hlen
      omega

/-- Read the segments of a qualified name after its first, each with its backslash. -/
def readSegments (text : Text) : Text × Text :=
  match text with
  | '\\' :: cs =>
    match _h : readIdent cs with
    | some (ident, rest) =>
      let (more, rest') := readSegments rest
      ('\\' :: ident ++ more, rest')
    | none => ([], text)
  | _ => ([], text)
termination_by text.length
decreasing_by
  have := length_readIdent ‹_›
  simp only [List.length_cons]
  omega

/-- Read a class constant. -/
def readConstant (text : Text) : Option (Text × Text) := do
  let (lead, text) : Text × Text := match text with
    | '\\' :: cs => (['\\'], cs)
    | cs => ([], cs)
  let (first, text) ← readIdent text
  let (more, text) := readSegments text
  match skipGap text with
  | ':' :: ':' :: text =>
    let (word, text) ← readIdent (skipGap text)
    if Text.sameLetters word "class" then some (lead ++ first ++ more, text) else none
  | _ => none

/-- Read one operand. -/
def readAtom (text : Text) : Option (Atom × Text) :=
  match text with
  | '\'' :: cs => (readSingle cs).map fun (t, rest) => (.literal t, rest)
  | '"' :: cs => (readDouble cs).map fun (t, rest) => (.literal t, rest)
  | cs => (readConstant cs).map fun (t, rest) => (.classConstant t, rest)

/-- Read operands with dots between them, at most `fuel` of them. A dot that no operand follows is
left unread. -/
def readAtoms : Nat → Text → Option (List Atom × Text)
  | 0, _ => none
  | fuel + 1, text => do
    let (atom, rest) ← readAtom text
    match skipGap rest with
    | '.' :: cs =>
      match readAtoms fuel (skipGap cs) with
      | some (atoms, rest') => some (atom :: atoms, rest')
      | none => some ([atom], rest)
    | _ => some ([atom], rest)

/-- Read the text of one argument. -/
def parse (text : Text) : Except ArgumentError Expression :=
  let start := skipGap text
  let (label, body) : Option Text × Text := match readLabel start with
    | some (ident, rest) => (some ident, rest)
    | none => (none, start)
  match readAtoms (body.length + 1) body with
  | some (atoms, rest) =>
    if skipGap rest = [] then .ok ⟨label, atoms⟩
    else .error ⟨Text.trim isBlank text⟩
  | none => .error ⟨Text.trim isBlank text⟩

end Expression

end Crosslink.Source
