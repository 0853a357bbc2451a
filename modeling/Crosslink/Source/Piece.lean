import Crosslink.Text.Blank
import Crosslink.Source.Token

/-!
# Cutting a source text into pieces

A source text is a sequence of pieces: tokens, blanks, comments, and stretches of inline markup
outside the code tags. `cut` finds them one after the other, each the longest that starts where the
one before ends, so that the pieces put together are the text again. A piece that cannot end
(an open string, comment or labelled text) is the last and holds what is left.

Where code starts with a character, `measure` tells which piece that is and how many further
characters belong to it.

## Main statements

* `cut_flatten`: the pieces of a text put together are the text.
-/

namespace Crosslink.Source

/-- What is wrong with a piece that does not end. -/
inductive Defect where
  | unterminatedComment
  | unterminatedString
  | invalidLabel
  | unterminatedLabelled
  deriving DecidableEq, Repr

namespace Defect

/-- The defect in words. -/
def message : Defect → Text
  | unterminatedComment => "unterminated comment"
  | unterminatedString => "unterminated string"
  | invalidLabel => "invalid heredoc label"
  | unterminatedLabelled => "unterminated heredoc"

end Defect

/-- The kinds of pieces. -/
inductive PieceKind where
  /-- A blank character. -/
  | blank
  /-- A comment. -/
  | comment
  /-- A documentation comment. -/
  | doc
  /-- Text outside the code tags, with the tags around it. -/
  | markup
  | token (kind : TokenKind)
  /-- What is left of a text whose next piece has no end. -/
  | broken (defect : Defect)
  deriving DecidableEq, Repr

/-- A stretch of a source text. -/
structure Piece where
  kind : PieceKind
  text : Text
  deriving DecidableEq, Repr

/-! ## Names and numbers -/

/-- True for the characters an identifier begins with. -/
def isNameStart (c : Char) : Bool := c.isAlpha || c = '_' || 0x80 ≤ c.toNat

/-- True for the characters of an identifier. -/
def isNameChar (c : Char) : Bool := isNameStart c || c.isDigit

/-- True when a text starts an identifier. -/
def startsName : Text → Bool
  | c :: _ => isNameStart c
  | [] => false

/-- The length of the identifier characters a text begins with. -/
def nameLength (text : Text) : Nat := (text.takeWhile isNameChar).length

/-- The length of what continues a name: identifier characters, and backslashes before the start
of an identifier. -/
def qualifiedLength : Text → Nat
  | [] => 0
  | c :: cs =>
    if isNameChar c || (c = '\\' && startsName cs) then qualifiedLength cs + 1 else 0

/-- The length of the letters, digits and underscores that continue a number. -/
def numberLength (text : Text) : Nat :=
  (text.takeWhile fun c => c.isAlphanum || c = '_').length

/-! ## Comments and inline markup -/

/-- The length of a line comment: up to a line feed or a closing tag. -/
def lineCommentLength : Text → Nat
  | [] => 0
  | '\n' :: _ => 0
  | '?' :: '>' :: _ => 0
  | _ :: cs => lineCommentLength cs + 1

/-- The number of characters up to and including the end of a block comment. -/
def blockCommentLength : Text → Option Nat
  | [] => none
  | '*' :: '/' :: _ => some 2
  | _ :: cs => (blockCommentLength cs).map (· + 1)

/-- The length of the tag that a text begins with after `<?`. -/
def tagLength (text : Text) : Nat :=
  if Text.sameLetters (text.take 3) "php" then 5
  else if text.head? = some '=' then 3
  else 2

/-- The length of inline markup, the tag that leads back to code included. -/
def markupLength : Text → Nat
  | [] => 0
  | '<' :: '?' :: cs => tagLength cs
  | _ :: cs => markupLength cs + 1

/-! ## Strings -/

/-- The number of characters up to and including the closing quote. A backslash takes the
character after it along. -/
def quotedLength (quote : Char) : Text → Option Nat
  | [] => none
  | ['\\'] => none
  | '\\' :: _ :: cs => (quotedLength quote cs).map (· + 2)
  | c :: cs => if c = quote then some 1 else (quotedLength quote cs).map (· + 1)

/-- The number of characters up to and including the label that ends a labelled text, for a text
that begins at the start of a line when `atLine` is set: the label stands first on its line but
for spaces and tabs, and no identifier character follows it. -/
def closingLength (label : Text) (atLine : Bool) : Text → Option Nat
  | [] => none
  | c :: cs =>
    let indent := ((c :: cs).takeWhile isIndent).length
    let rest := (c :: cs).drop indent
    if atLine && label.isPrefixOf rest && !((rest.drop label.length).head?.any isNameChar) then
      some (indent + label.length)
    else (closingLength label (c = '\n') cs).map (· + 1)

/-- For the text after `<<<`, the number of characters up to and including the closing label. -/
def labelledLength (text : Text) : Except Defect Nat :=
  let indent := (text.takeWhile isIndent).length
  let opening := text.drop indent
  let quote := opening.head?.filter fun c => c = '\'' || c = '"'
  let marks := if quote.isSome then 1 else 0
  let named := opening.drop marks
  let label := named.take (nameLength named)
  let after := named.drop label.length
  if label = [] then .error .invalidLabel
  else if quote.isSome && after.head? ≠ quote then .error .invalidLabel
  else
    let body := after.drop marks
    match closingLength label false body with
    | some n => .ok (indent + marks + label.length + marks + n)
    | none => .error .unterminatedLabelled

/-! ## Pieces -/

/-- The piece that begins with the character `c` where code goes on with `cs`, and how many
characters of `cs` belong to it. -/
def measure (c : Char) (cs : Text) : PieceKind × Nat :=
  let single := fun kind : TokenKind => (PieceKind.token kind, 0)
  if isAsciiBlank c then (.blank, 0)
  else if c = '?' && cs.head? = some '>' then (.markup, 1 + markupLength (cs.drop 1))
  else if c = '#' && cs.head? = some '[' then (.token .attrOpen, 1)
  else if c = '#' || (c = '/' && cs.head? = some '/') then (.comment, lineCommentLength cs)
  else if c = '/' && cs.head? = some '*' then
    match blockCommentLength (cs.drop 1) with
    | some n => (if (cs.drop 1).head? = some '*' && 3 ≤ n then .doc else .comment, 1 + n)
    | none => (.broken .unterminatedComment, cs.length)
  else if c = '\'' || c = '"' || c = '\x60' then
    match quotedLength c cs with
    | some n => (.token .string, n)
    | none => (.broken .unterminatedString, cs.length)
  else if c = '<' && cs.take 2 = ['<', '<'] then
    match labelledLength (cs.drop 2) with
    | .ok n => (.token .string, 2 + n)
    | .error defect => (.broken defect, cs.length)
  else if c = '$' && startsName cs then (.token .variable, nameLength cs)
  else if c = '\\' && startsName cs then (.token .name, qualifiedLength cs)
  else if isNameStart c then (.token .name, qualifiedLength cs)
  else if c.isDigit then (.token .number, numberLength cs)
  else if c = '-' && cs.head? = some '>' then (.token .arrow, 1)
  else if c = '?' && cs.take 2 = ['-', '>'] then (.token .arrow, 2)
  else if c = ':' && cs.head? = some ':' then (.token .doubleColon, 1)
  else if c = '(' then single .openParen
  else if c = '{' then single .openBrace
  else if c = '[' then single .openBracket
  else if c = ')' then single .closeParen
  else if c = '}' then single .closeBrace
  else if c = ']' then single .closeBracket
  else if c = ',' then single .comma
  else if c = ';' then single .semicolon
  else if c = ':' then single .colon
  else if c = '.' && cs.head? ≠ some '.' && cs.head? ≠ some '=' then single .dot
  else single .other

/-- The pieces of a text that begins with code. -/
def cutCode : Text → List Piece
  | [] => []
  | c :: cs =>
    let (kind, n) := measure c cs
    ⟨kind, c :: cs.take n⟩ :: cutCode (cs.drop n)
termination_by text => text.length
decreasing_by simp only [List.length_drop, List.length_cons]; omega

/-- The pieces of a source text. It begins with inline markup when it has a code tag at all, and
is all code otherwise. -/
def cut (source : Text) : List Piece :=
  if Text.contains "<?" source then
    let n := markupLength source
    ⟨.markup, source.take n⟩ :: cutCode (source.drop n)
  else cutCode source

theorem cutCode_flatten (text : Text) : (cutCode text).flatMap Piece.text = text := by
  fun_induction cutCode text with
  | case1 => rfl
  | case2 c cs kind n h ih => simp [ih]

theorem cut_flatten (source : Text) : (cut source).flatMap Piece.text = source := by
  unfold cut
  split <;> simp [cutCode_flatten]

end Crosslink.Source
