import Crosslink.Text.Basic
import Crosslink.Text.Shapeless

/-!
# Quoted texts

How a text stands in a message when every character of it has to be told: between double quotes,
with a backslash before a quote and a backslash, letters for the common controls, and the number of
any other character without a shape of its own.
-/

namespace Crosslink.Text

/-- The digits of a number to the base 16. -/
def hexadecimal (n : Nat) : Text := Nat.toDigits 16 n

/-- A character as it stands between the quotes. -/
def quotedChar (c : Char) : Text :=
  if c = '"' then "\\\""
  else if c = '\\' then "\\\\"
  else if c = '\n' then "\\n"
  else if c = '\r' then "\\r"
  else if c = '\t' then "\\t"
  else if c.toNat = 0 then "\\0"
  else if isShapeless c then "\\u\x7b" ++ hexadecimal c.toNat ++ "\x7d"
  else [c]

/-- The text between quotes. -/
def quoted (text : Text) : Text := "\"" ++ text.flatMap quotedChar ++ "\""

end Crosslink.Text
