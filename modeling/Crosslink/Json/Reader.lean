import Crosslink.Text.Position

/-!
# Reading JSON

A JSON text is read from front to back in one go, and what is wrong with it shows at the first place
that cannot go on. A `Reader` keeps that place; this module holds the causes of errors with their
wording, the steps all readers share, and the readers of words and strings.

An error shows either behind all that was read, or in the next character, of which one byte then
counts as read.
-/

namespace Crosslink.Json

/-- What is wrong with a JSON text. -/
inductive Cause where
  | eofValue
  | eofList
  | eofObject
  | eofString
  | expectedValue
  | expectedWord
  | expectedColon
  | expectedListEnd
  | expectedObjectEnd
  | keyNotString
  | trailingComma
  | trailingCharacters
  | invalidNumber
  | numberOutOfRange
  | invalidEscape
  | loneSurrogate
  | unfinishedSurrogates
  | controlCharacter
  | tooDeep
  /-- A member is there twice. -/
  | duplicateField (name : Text)
  /-- A value is of another kind than its place asks for. -/
  | invalidType (found expected : Text)
  /-- A value has none of the forms that its place allows. -/
  | noVariant (expected : Text)
  deriving DecidableEq, Repr

/-- The cause in words. -/
def Cause.message : Cause → Text
  | eofValue => "EOF while parsing a value"
  | eofList => "EOF while parsing a list"
  | eofObject => "EOF while parsing an object"
  | eofString => "EOF while parsing a string"
  | expectedValue => "expected value"
  | expectedWord => "expected ident"
  | expectedColon => "expected `:`"
  | expectedListEnd => "expected `,` or `]`"
  | expectedObjectEnd => "expected `,` or `\x7d`"
  | keyNotString => "key must be a string"
  | trailingComma => "trailing comma"
  | trailingCharacters => "trailing characters"
  | invalidNumber => "invalid number"
  | numberOutOfRange => "number out of range"
  | invalidEscape => "invalid escape"
  | loneSurrogate => "lone leading surrogate in hex escape"
  | unfinishedSurrogates => "unexpected end of hex escape"
  | controlCharacter => "control character (\\u0000-\\u001F) found while parsing a string"
  | tooDeep => "recursion limit exceeded"
  | duplicateField name => "duplicate field `" ++ name ++ "`"
  | invalidType found expected => "invalid type: " ++ found ++ ", expected " ++ expected
  | noVariant expected => "data did not match any variant of " ++ expected

/-- A JSON text that cannot be read, with the number of bytes read when that shows. -/
structure Error where
  cause : Cause
  offset : Nat
  deriving DecidableEq, Repr

/-- The error in words; the column counts the bytes read of the line. -/
def Error.message (source : Text) (e : Error) : Text :=
  let p := Position.ofOffset source e.offset
  e.cause.message ++ " at line " ++ Text.ofNat p.line ++ " column " ++ Text.ofNat (p.column - 1)

/-- A place in a text: the number of bytes before it, and what stands from there on. -/
structure Cursor where
  offset : Nat
  rest : Text

/-- The place so many characters on. -/
def Cursor.advance (c : Cursor) (n : Nat) : Cursor :=
  ⟨c.offset + Text.width (c.rest.take n), c.rest.drop n⟩

/-- What reads from a place in a text: it goes on to a later place, or fails. -/
abbrev Reader := StateT Cursor (Except Error)

namespace Reader

/-! ## Steps -/

/-- The next character. -/
def peek : Reader (Option Char) := return (← get).rest.head?

/-- Go past so many characters. -/
def pass (n : Nat) : Reader Unit := modify (·.advance n)

/-- Fail behind what has been read. -/
def fail {α : Type} (cause : Cause) : Reader α := do throw ⟨cause, (← get).offset⟩

/-- Fail in the next character, or at the end of the text. -/
def failNext {α : Type} (cause : Cause) : Reader α := do
  let c ← get
  throw ⟨cause, if c.rest.isEmpty then c.offset else c.offset + 1⟩

/-- True for the blanks that may stand between the parts of a JSON text. -/
def isGap (c : Char) : Bool := c = ' ' || c = '\n' || c = '\t' || c = '\r'

/-- Go past blanks, to the next character that is none. -/
def skipGap : Reader (Option Char) := do
  pass ((← get).rest.takeWhile isGap).length
  peek

/-- Go past the next character if it is this one; tells whether it was. -/
def accept (c : Char) : Reader Bool := do
  if (← peek) = some c then
    pass 1
    return true
  else return false

/-- Read a text as a whole. -/
def whole {α : Type} (reader : Reader α) (source : Text) : Except Error α :=
  let toEnd : Reader α := do
    let a ← reader
    match ← skipGap with
    | none => return a
    | some _ => failNext .trailingCharacters
  (toEnd.run ⟨0, source⟩).map Prod.fst

/-! ## Words -/

/-- Read a word of this spelling. -/
def word : Text → Reader Unit
  | [] => return
  | c :: cs => do
    match ← peek with
    | none => fail .eofValue
    | some d =>
      if d = c then
        pass 1
        word cs
      else failNext .expectedWord

/-! ## Strings -/

/-- True for hexadecimal digits. -/
def isHex (c : Char) : Bool :=
  c.isDigit || ('a' ≤ c && c ≤ 'f') || ('A' ≤ c && c ≤ 'F')

/-- The number that hexadecimal digits stand for. -/
def hexValue (digits : Text) : Nat :=
  digits.foldl (fun n c =>
    16 * n + (if c.isDigit then c.toNat - 48 else (c.toNat ||| 32) - 87)) 0

/-- Read four hexadecimal digits. Other bytes are taken as read too before the error shows. -/
def hex : Reader Nat := do
  let c ← get
  let digits := c.rest.take 4
  if digits.length = 4 && digits.all isHex then
    pass 4
    return hexValue digits
  else
    let left := Text.width c.rest
    throw (if left < 4 then ⟨.eofString, c.offset + left⟩ else ⟨.invalidEscape, c.offset + 4⟩)

/-- Go past one of the two characters that introduce the second half of a surrogate pair. -/
def introduce (c : Char) : Reader Unit := do
  if (← peek).isNone then fail .eofString
  else if !(← accept c) then failNext .unfinishedSurrogates

/-- Read a character given by its number: one of four digits, or two halves of a surrogate pair. -/
def numbered : Reader Char := do
  let n ← hex
  if 0xdc00 ≤ n ∧ n ≤ 0xdfff then fail .loneSurrogate
  else if 0xd800 ≤ n ∧ n ≤ 0xdbff then
    introduce '\\'
    introduce 'u'
    let m ← hex
    if m < 0xdc00 ∨ 0xdfff < m then fail .loneSurrogate
    else return Char.ofNat (0x10000 + (n - 0xd800) * 0x400 + (m - 0xdc00))
  else return Char.ofNat n

/-- The character that a letter after a backslash stands for. -/
def lettered? (c : Char) : Option Char :=
  if c = '"' || c = '\\' || c = '/' then some c
  else if c = 'b' then some '\x08'
  else if c = 'f' then some '\x0c'
  else if c = 'n' then some '\n'
  else if c = 'r' then some '\r'
  else if c = 't' then some '\t'
  else none

/-- Read what follows a backslash. -/
def escape : Reader Char := do
  match ← peek with
  | none => fail .eofString
  | some c =>
    if c = 'u' then
      pass 1
      numbered
    else match lettered? c with
      | some d =>
        pass 1
        return d
      | none => failNext .invalidEscape

/-- Read the rest of a string of at most `fuel` characters; `front` is what has been read of it,
last character first. -/
def stringFrom : Nat → Text → Reader Text
  | 0, _ => fail .eofString
  | fuel + 1, front => do
    match ← peek with
    | none => fail .eofString
    | some c =>
      if c = '"' then
        pass 1
        return front.reverse
      else if c = '\\' then
        pass 1
        let d ← escape
        stringFrom fuel (d :: front)
      else if c.toNat < 0x20 then failNext .controlCharacter
      else
        pass 1
        stringFrom fuel (c :: front)

/-- Read a string from its opening quote on. -/
def string : Reader Text := do
  let c ← get
  pass 1
  stringFrom c.rest.length []

/-! ## Colons -/

/-- Go past the colon between the name and the value of a member. -/
def colon : Reader Unit := do
  match ← skipGap with
  | none => failNext .eofObject
  | some _ => if !(← accept ':') then failNext .expectedColon

end Reader

end Crosslink.Json
