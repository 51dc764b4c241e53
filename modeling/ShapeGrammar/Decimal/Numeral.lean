import ShapeGrammar.Number.Exact

/-!
# Numbers as they are written in data files

A `Numeral` keeps what a text says about a number: its sign, its digits before and after the point,
its exponent, and whether it was written as a whole number.  `digits` and `exponent` give the
number it stands for, exactly.

A double is read from a numeral by `toFloat?` in two steps, and each step rounds.  The digits, as
many of them as 64 bits hold, make a whole number, and that is multiplied or divided by a power of
ten.  So a numeral with few digits and a small exponent gives the double nearest to it, and a
longer one may give a neighbour of that.
-/

namespace ShapeGrammar

open Float.Model.UnpackedFloat (Sign)

namespace Number

/-- The double nearest to `digits * 10 ^ exponent`. -/
def ofDecimal (digits : Nat) (exponent : Int) : Float := .ofModel (.ofScientific digits exponent)

/-- The largest power of ten that doubles hold. -/
def maxPowerOfTen : Nat := 308

/-- `x` times `10 ^ exponent`, in one multiplication or division where the power of ten is a double,
and else in several divisions; `none` for what is too large. -/
def timesPowerOfTen (x : Float) (exponent : Int) : Option Float :=
  if 0 ≤ exponent then
    if exponent ≤ maxPowerOfTen then
      let product := x * ofDecimal 1 exponent
      if product.isFinite then some product else none
    else if x == 0 then some x else none
  else if -exponent ≤ maxPowerOfTen then some (x / ofDecimal 1 (-exponent))
  else if x == 0 then some x
  else timesPowerOfTen (x / ofDecimal 1 maxPowerOfTen) (exponent + maxPowerOfTen)
termination_by (-exponent).toNat
decreasing_by simp only [maxPowerOfTen] at *; omega

end Number

/-- A number as it is written. -/
structure Numeral where
  negative : Bool
  /-- The digits before the point. -/
  whole : List Nat
  /-- The digits after the point. -/
  fraction : List Nat
  /-- The exponent, zero if there is none. -/
  power : Int
  /-- Written with neither a point nor an exponent. -/
  isWhole : Bool
deriving DecidableEq

namespace Numeral

/-- The number with these digits after those of `n`. -/
def ofDigits (n : Nat) (ds : List Nat) : Nat := ds.foldl (fun n d => n * 10 + d) n

/-- All digits, without the point. -/
def digits (n : Numeral) : Nat := ofDigits (ofDigits 0 n.whole) n.fraction

/-- The power of ten that belongs to `digits`. -/
def exponent (n : Numeral) : Int := n.power - n.fraction.length

/-- Digits put after those of `n` until 64 bits do not hold the next; and the number of digits left
over. -/
def fill (n : Nat) : List Nat → Nat × Nat
  | [] => (n, 0)
  | d :: ds => if n * 10 + d < UInt64.size then fill (n * 10 + d) ds else (n, ds.length + 1)

/-- The digits that 64 bits hold and the power of ten that belongs to them. -/
def significand (n : Numeral) : Nat × Int :=
  let (m, left) := fill 0 n.whole
  let (m, lost) := fill m n.fraction
  (m, n.power + left - (n.fraction.length - lost : Nat))

/-- The double that a numeral is read as; `none` if it is out of range.  A minus sign before a zero
is kept. -/
def toFloat? (n : Numeral) : Option Float :=
  let (m, e) := n.significand
  (Number.timesPowerOfTen (Number.nearest .positive m 0) e).map fun x =>
    if n.negative then -x else x

/-- The numeral is within the range of doubles. -/
def inRange (n : Numeral) : Bool := n.toFloat?.isSome

/-- The value of a whole number without a sign, if 64 bits hold it. -/
def natural? (n : Numeral) : Option Nat :=
  if n.isWhole && !n.negative && n.digits < UInt64.size then some n.digits else none

/-- The 32-bit number that a numeral is read as: the nearest one for a whole number that 64 bits
hold, and for any other the one nearest to the double. -/
def toSingle? (n : Numeral) : Option Float32 :=
  if n.isWhole && !n.negative && n.digits < UInt64.size then
    some (Number.nearestSingle .positive n.digits 0)
  else if n.isWhole && n.negative && 0 < n.digits && n.digits ≤ UInt64.size / 2 then
    some (Number.nearestSingle .negative n.digits 0)
  else n.toFloat?.map Number.narrow

end Numeral

end ShapeGrammar
