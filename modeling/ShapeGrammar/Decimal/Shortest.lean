/-!
# The shortest decimal that reads back

A floating-point value `m * 2 ^ e` stands for every real number that rounds to it, an interval
around it whose ends belong to it exactly when `m` is even.  `shortest` finds a decimal in that
interval with as few digits as possible, and among those the one nearest to the value.

A decimal with few digits is a multiple of a large power of ten, so the search goes through the
powers of ten from large to small and stops at the first whose multiples meet the interval.  If any
multiple lies in the interval, then so does one of the two that enclose the value, and these two are
all that `onGrid` tests.  All comparisons are between natural numbers.
-/

namespace ShapeGrammar

/-- The number `digits * 10 ^ exponent`. -/
structure Decimal where
  digits : Nat
  exponent : Int
deriving DecidableEq

namespace Decimal

open Float.Model (Format UnpackedFloat)

/-- Which of two equally near decimals is taken. -/
inductive Tie where
  /-- The larger one. -/
  | up
  /-- The one with the even last digit. -/
  | even
deriving DecidableEq

/-- A positive value `mantissa * 2 ^ exponent` of a binary format. -/
structure Binary where
  mantissa : Nat
  exponent : Int
  /-- The next smaller value is only half as far away as the next larger one, as it is at the
  start of a binade. -/
  closeBelow : Bool

namespace Binary

/-- The value with mantissa `m` and exponent `e` in `format`. -/
def ofFormat (format : Format) (m : Nat) (e : Int) : Binary where
  mantissa := m
  exponent := e
  closeBelow := m == 1 <<< format.mantissaBitsWithoutImplicit && format.minExponent < e

/-- Four times the mantissa, so that the ends of the interval are whole as well. -/
def middle (b : Binary) : Nat := 4 * b.mantissa

/-- The lower end of the interval, in quarters of the mantissa's unit. -/
def low (b : Binary) : Nat := if b.closeBelow then b.middle - 1 else b.middle - 2

/-- The upper end of the interval, in quarters of the mantissa's unit. -/
def high (b : Binary) : Nat := b.middle + 2

/-- The grid step `10 ^ k` on the scale that makes the step and the interval whole. -/
def step (b : Binary) (k : Int) : Nat := Nat.pow 10 k.toNat <<< (2 - b.exponent).toNat

/-- A quarter of the mantissa's unit on the same scale as `step`. -/
def quarter (b : Binary) (k : Int) : Nat := Nat.pow 10 (-k).toNat <<< (b.exponent - 2).toNat

/-- The decimal `c * 10 ^ k` rounds to the value. -/
def reads (b : Binary) (k : Int) (c : Nat) : Bool :=
  let point := c * b.step k
  if b.mantissa % 2 = 0 then
    b.low * b.quarter k ≤ point && point ≤ b.high * b.quarter k
  else
    b.low * b.quarter k < point && point < b.high * b.quarter k

/-- The multiple of `10 ^ k` nearest to the value, if one rounds to it. -/
def onGrid (tie : Tie) (b : Binary) (k : Int) : Option Nat :=
  let value := b.middle * b.quarter k
  let below := value / b.step k
  match b.reads k below, b.reads k (below + 1) with
  | false, false => none
  | true, false => some below
  | false, true => some (below + 1)
  | true, true =>
    match compare (value - below * b.step k) ((below + 1) * b.step k - value), tie with
    | .lt, _ => some below
    | .gt, _ => some (below + 1)
    | .eq, .up => some (below + 1)
    | .eq, .even => some (if below % 2 = 0 then below else below + 1)

/-- The value with all its digits. -/
def exact (b : Binary) : Decimal :=
  if 0 ≤ b.exponent then ⟨b.mantissa <<< b.exponent.toNat, 0⟩
  else ⟨b.mantissa * Nat.pow 5 (-b.exponent).toNat, b.exponent⟩

/-- A power of ten above the value: `1233 / 4096` is just below the decimal logarithm of two. -/
def startExponent (b : Binary) : Int :=
  ((b.mantissa.log2 : Int) + b.exponent) * 1233 / 4096 + 2

/-- The shortest decimal that rounds to the value, and of the shortest ones the nearest.  Seventeen
digits always suffice, so the exact expansion is only a last resort that needs no argument. -/
def shortest (tie : Tie) (b : Binary) : Decimal :=
  let found := (List.range 24).findSome? fun i =>
    let k := b.startExponent - (i : Nat)
    (b.onGrid tie k).map fun digits => Decimal.mk digits k
  found.getD b.exact

end Binary

end Decimal

end ShapeGrammar
