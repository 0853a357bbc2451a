import Crosslink.Text.Basic

/-!
# JSON values and how they are written

The values that machine-readable output is made of, and their written form: two spaces of
indentation for every level, one item or member on a line, and empty lists and objects as a pair of
brackets.
-/

namespace Crosslink.Json

/-- A JSON value. The members of an object keep their order. -/
inductive Value where
  | null
  | boolean (value : Bool)
  | number (value : Nat)
  | string (text : Text)
  | list (items : List Value)
  | object (members : List (Text × Value))

namespace Value

/-- The text, or nothing at all. -/
def ofOption : Option Text → Value
  | some text => string text
  | none => null

/-! ## Strings -/

/-- A hexadecimal digit. -/
def hexDigit (n : Nat) : Char := Nat.digitChar (n % 16)

/-- A character as it is written between quotes. -/
def escape (c : Char) : Text :=
  if c = '"' then "\\\""
  else if c = '\\' then "\\\\"
  else if c = '\n' then "\\n"
  else if c = '\r' then "\\r"
  else if c = '\t' then "\\t"
  else if c = '\x08' then "\\b"
  else if c = '\x0c' then "\\f"
  else if c.toNat < 0x20 then "\\u00" ++ [hexDigit (c.toNat / 16), hexDigit c.toNat]
  else [c]

/-- A text between quotes. -/
def quote (text : Text) : Text := "\"" ++ text.flatMap escape ++ "\""

/-! ## Values -/

/-- The blanks that start a line at a level. -/
def indent (level : Nat) : Text := List.replicate (2 * level) ' '

/-- Written lines between brackets, or the brackets alone when there are none. -/
def enclose (opener closer : Char) (level : Nat) (lines : List Text) : Text :=
  if lines.isEmpty then [opener, closer]
  else
    let body := lines.map fun l => "\n" ++ indent (level + 1) ++ l
    [opener] ++ Text.join [','] body ++ "\n" ++ indent level ++ [closer]

mutual

/-- A value as it is written at a level. -/
def write (level : Nat) : Value → Text
  | null => "null"
  | boolean true => "true"
  | boolean false => "false"
  | number n => Text.ofNat n
  | string text => quote text
  | list items => enclose '[' ']' level (writeItems (level + 1) items)
  | object members => enclose '{' '}' level (writeMembers (level + 1) members)

/-- The items of a list as they are written at a level. -/
def writeItems (level : Nat) : List Value → List Text
  | [] => []
  | v :: rest => write level v :: writeItems level rest

/-- The members of an object as they are written at a level. -/
def writeMembers (level : Nat) : List (Text × Value) → List Text
  | [] => []
  | (key, v) :: rest => (quote key ++ ": " ++ write level v) :: writeMembers level rest

end

/-- A value as it is written by itself. -/
def pretty (v : Value) : Text := write 0 v

end Value

end Crosslink.Json
