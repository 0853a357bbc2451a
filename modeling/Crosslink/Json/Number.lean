import Crosslink.Decimal.Shortest
import Crosslink.Json.Reader

/-!
# Numbers in JSON

A number without a fraction and an exponent is an integer if 64 bits hold it, and any other number
is kept in double precision. That takes three roundings, not one: of the first digits, of the power
of ten, and of what the two come to. A number that is too large for it is none.

How a number is written is told apart from what it stands for: `Numeral` is the one and `Number` the
other.
-/

namespace Crosslink.Json

/-- A number in writing. -/
structure Numeral where
  negative : Bool
  /-- The digits before the point. -/
  whole : Text
  /-- The digits behind the point, if there is one. -/
  fraction : Option Text
  /-- The sign and the digits of the exponent, if there is one. -/
  exponent : Option (Bool × Text)

/-- What a number stands for. -/
inductive Number where
  | integer (value : Int)
  /-- A number in double precision, given by its size. -/
  | real (negative : Bool) (size : Float)

/-- The number in writing. -/
def Number.text : Number → Text
  | integer value => (if value < 0 then "-" else "" : String) ++ Text.ofNat value.natAbs
  | real negative size =>
    (if negative then "-" else "" : String)
      ++ (if size == 0 then ("0.0" : Text) else (Decimal.shortest size).write)

/-! ## What numerals stand for -/

/-- Append digits to the number `n` as long as it stays below a limit; the result holds the digits
left over. -/
def appendDigits (limit : Nat) : Nat → Text → Nat × Text
  | n, [] => (n, [])
  | n, c :: cs =>
    let m := 10 * n + (c.toNat - 48)
    if m < limit then appendDigits limit m cs else (n, c :: cs)

/-- The power of ten in double precision. -/
def tenTo (n : Nat) : Float := Float.ofScientific 1 false n

/-- A number times a power of ten, in steps of at most 308, or nothing if it is too large. -/
def scale (f : Float) (exponent : Int) : Option Float :=
  if exponent < -308 then
    if f == 0 then some f else scale (f / tenTo 308) (exponent + 308)
  else if exponent < 0 then some (f / tenTo (-exponent).toNat)
  else if 308 < exponent then
    if f == 0 then some f else none
  else
    let g := f * tenTo exponent.toNat
    if g.isInf then none else some g
termination_by (-exponent).toNat
decreasing_by omega

namespace Numeral

/-- The digits that count, as a number of 64 bits, and the power of ten that they are to be taken
with. Digits before the point that do not count raise it, and those behind the point that do
lower it. -/
def significand (n : Numeral) : Nat × Int :=
  let fraction := n.fraction.getD []
  let (whole, wholeLeft) := appendDigits (Nat.pow 2 64) 0 n.whole
  let (value, fractionLeft) := appendDigits (Nat.pow 2 64) whole fraction
  (value, (wholeLeft.length : Int) - ((fraction.length : Int) - (fractionLeft.length : Int)))

/-- The integer that a numeral of digits alone stands for. There is no negative zero among them. -/
def integer? (n : Numeral) : Option Int :=
  let (value, left) := appendDigits (Nat.pow 2 64) 0 n.whole
  if n.fraction.isSome || n.exponent.isSome || !left.isEmpty then none
  else if !n.negative then some value
  else if 0 < value && value ≤ Nat.pow 2 63 then some (-value)
  else none

/-- The number that a numeral stands for. One that is too large gives the number of characters at
its end that need not be read to tell: an exponent may have more digits than it takes. -/
def number (n : Numeral) : Except Nat Number :=
  match n.integer? with
  | some value => .ok (.integer value)
  | none =>
    let (value, power) := n.significand
    let (isLowered, digits) := n.exponent.getD (false, [])
    let (size, left) := appendDigits (Nat.pow 2 31) 0 digits
    if !left.isEmpty then
      if value = 0 || isLowered then .ok (.real n.negative 0) else .error (left.length - 1)
    else
      match scale value.toUInt64.toFloat (if isLowered then power - size else power + size) with
      | some f => .ok (.real n.negative f)
      | none => .error 0

end Numeral

/-! ## Reading -/

namespace Reader

/-- Read digits. -/
def digits : Reader Text := do
  let ds := (← get).rest.takeWhile Char.isDigit
  pass ds.length
  return ds

/-- Read digits, at least one; `atEnd` is what is wrong when the text ends instead. -/
def someDigits (atEnd : Cause) : Reader Text := do
  let ds ← digits
  if ds.isEmpty then failNext (if (← peek).isNone then atEnd else .invalidNumber)
  else return ds

/-- Read a numeral: digits without a zero in front, a fraction, and an exponent; `atEnd` is what is
wrong when the text ends before a digit that has to be there. -/
def numeral (atEnd : Cause) : Reader Numeral := do
  let negative ← accept '-'
  let whole ←
    if ← accept '0' then
      if (← peek).any Char.isDigit then failNext .invalidNumber else pure ['0']
    else someDigits atEnd
  let fraction ← if ← accept '.' then pure (some (← someDigits atEnd)) else pure none
  let isScaled ← if ← accept 'e' then pure true else accept 'E'
  let exponent ←
    if isScaled then
      let isLowered ← accept '-'
      if !isLowered then
        let _ ← accept '+'
      pure (some (isLowered, ← someDigits atEnd))
    else pure none
  return ⟨negative, whole, fraction, exponent⟩

/-- Read a number. -/
def number : Reader Number := do
  match (← numeral .eofValue).number with
  | .ok n => return n
  | .error unread => throw ⟨.numberOutOfRange, (← get).offset - unread⟩

end Reader

end Crosslink.Json
