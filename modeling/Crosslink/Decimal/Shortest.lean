import Crosslink.Text.Basic

/-!
# The shortest decimal of a double-precision number

A double-precision number stands for all the reals that round to it. Among these are decimals; the
shortest of them names the number, and the nearest one where several are equally short.

The reals that round to `m * 2 ^ q` lie between the halfway points to its neighbours, which are
included just when `m` is even. All of it is decided on natural numbers, in quarters of `2 ^ q`.
-/

namespace Crosslink

/-- A decimal: `digits * 10 ^ exponent`. -/
structure Decimal where
  digits : Nat
  exponent : Int
  deriving DecidableEq, Repr

namespace Decimal

/-- A power of two or ten split into what multiplies and what divides. -/
def powers (base : Nat) (exponent : Int) : Nat × Nat :=
  (Nat.pow base exponent.toNat, Nat.pow base (-exponent).toNat)

/-- A finite double-precision number that is not negative: `mantissa * 2 ^ exponent`. -/
structure Binary where
  mantissa : Nat
  exponent : Int
  /-- True when the neighbour below is half as far away as the one above. -/
  narrow : Bool

/-- The number that the bits of a finite double stand for, its sign left out. -/
def Binary.ofFloat (f : Float) : Binary :=
  let bits := f.toBits.toNat
  let biased := bits / Nat.pow 2 52 % 2048
  let fraction := bits % Nat.pow 2 52
  if biased = 0 then ⟨fraction, -1074, false⟩
  else ⟨Nat.pow 2 52 + fraction, (biased : Int) - 1075, fraction = 0 && 1 < biased⟩

/-- Whether `digits * 10 ^ exponent` rounds to the number. -/
def Binary.isNamedBy (b : Binary) (d : Decimal) : Bool :=
  let (two, half) := powers 2 (b.exponent - 2)
  let (ten, tenth) := powers 10 d.exponent
  let value := d.digits * ten * half
  let low := (if b.narrow then 4 * b.mantissa - 1 else 4 * b.mantissa - 2) * two * tenth
  let high := (4 * b.mantissa + 2) * two * tenth
  if b.mantissa % 2 = 0 then low ≤ value && value ≤ high else low < value && value < high

/-- The multiple of `10 ^ exponent` nearest to the number, of the one below and the one above, that
rounds to it; the even one when both do and are equally near. -/
def Binary.namedAt (b : Binary) (exponent : Int) : Option Decimal :=
  let (two, half) := powers 2 (b.exponent - 2)
  let (ten, tenth) := powers 10 exponent
  let num := 4 * b.mantissa * two * tenth
  let den := ten * half
  let below := Decimal.mk (num / den) exponent
  let above := Decimal.mk (num / den + 1) exponent
  let isBelowNearer := 2 * (num % den) < den || (2 * (num % den) = den && below.digits % 2 = 0)
  match b.isNamedBy below, b.isNamedBy above with
  | true, true => some (if isBelowNearer then below else above)
  | true, false => some below
  | false, true => some above
  | false, false => none

/-- The number as it is, without any rounding. -/
def Binary.exact (b : Binary) : Decimal :=
  if b.exponent < 0 then ⟨b.mantissa * Nat.pow 5 (-b.exponent).toNat, b.exponent⟩
  else ⟨b.mantissa * Nat.pow 2 b.exponent.toNat, 0⟩

/-- The shortest decimal that rounds to a number other than zero: the one on the coarsest grid that
has one. No double-precision number reaches `10 ^ 309`, and some multiple of `10 ^ -324` rounds to
each of them. -/
def shortest (f : Float) : Decimal :=
  let b := Binary.ofFloat f
  let grids := (List.range 640).map fun (n : Nat) => (309 : Int) - (n : Int)
  (grids.findSome? b.namedAt).getD b.exact

/-- A decimal in writing: with a point and without an exponent while its first digit stands at most
five places behind the point or sixteen before it, and in powers of ten otherwise. -/
def write (d : Decimal) : Text :=
  let digits := Text.ofNat d.digits
  let first : Int := d.exponent + digits.length - 1
  if first < -5 ∨ 15 < first then
    digits.take 1 ++ (if digits.length = 1 then [] else '.' :: digits.drop 1)
      ++ (if first < 0 then "e-" else "e+" : String) ++ Text.ofNat first.natAbs
  else if 0 ≤ d.exponent then digits ++ List.replicate d.exponent.toNat '0' ++ ".0"
  else if 0 ≤ first then
    digits.take (first.toNat + 1) ++ '.' :: digits.drop (first.toNat + 1)
  else "0." ++ List.replicate (-first - 1).toNat '0' ++ digits

end Decimal

end Crosslink
