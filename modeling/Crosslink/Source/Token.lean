import Crosslink.Span
import Crosslink.Text.Position

/-!
# Tokens

The tokens that declarations of tests and methods are read from, and the error that says where a
source text cannot be read. A token carries its text, so that no reader has to go back to the
source for it; a bracket also carries the index of the bracket it pairs with.
-/

namespace Crosslink

/-- A source text that cannot be read, with the place where that shows. -/
structure SyntaxError where
  cause : Text
  position : Position
  deriving DecidableEq, Repr

namespace SyntaxError

/-- The error found at a byte offset of a source text. -/
def locate (source : Text) (offset : Nat) (cause : Text) : SyntaxError :=
  ⟨cause, Position.ofOffset source offset⟩

/-- The error in words. -/
def message (e : SyntaxError) : Text :=
  e.cause ++ " at line " ++ Text.ofNat e.position.line ++ ", column "
    ++ Text.ofNat e.position.column

end SyntaxError

namespace Source

/-- The kinds of tokens. -/
inductive TokenKind where
  /-- An identifier or a qualified name. -/
  | name
  /-- A dollar sign and an identifier. -/
  | variable
  /-- A quoted text, or one between two lines with a label. -/
  | string
  | number
  /-- The bracket that opens a group of attributes: `#[`. -/
  | attrOpen
  /-- `->` or `?->`. -/
  | arrow
  | doubleColon
  | openParen
  | closeParen
  | openBrace
  | closeBrace
  | openBracket
  | closeBracket
  | comma
  | semicolon
  | dot
  | colon
  /-- Any other character. -/
  | other
  deriving DecidableEq, Repr

namespace TokenKind

/-- True for the kinds that open a bracket. -/
def opens : TokenKind → Bool
  | openParen | openBrace | openBracket | attrOpen => true
  | _ => false

/-- For a closing bracket, the kinds it closes. -/
def closes : TokenKind → Option (List TokenKind)
  | closeParen => some [openParen]
  | closeBrace => some [openBrace]
  | closeBracket => some [openBracket, attrOpen]
  | _ => none

end TokenKind

/-- One token. -/
structure Token where
  kind : TokenKind
  span : Span
  text : Text
  /-- For a bracket, the index of the bracket it pairs with. -/
  partner : Option Nat
  deriving DecidableEq, Repr

namespace Token

/-- True for a name that is this word, the case of ASCII letters left out of account. -/
def isWord (t : Token) (word : Text) : Bool := t.kind = .name && Text.sameLetters t.text word

/-- True for a name that is one of these words. -/
def isOneOf (t : Token) (words : List Text) : Bool := words.any t.isWord

end Token

end Source

end Crosslink
