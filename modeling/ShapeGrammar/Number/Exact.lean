/-!
# Exact operations on doubles

A finite double is `± m * 2 ^ e` with a natural mantissa `m`.  The operations of this file are
computed on that form with whole-number arithmetic and rounded at most once at the end, so each of
them is the exact result of its one-sentence rule:

* `nearest` is the only place where a number is rounded to a double;
* `roundHalfAway` and `ceiling?` go to whole numbers;
* `hypot` is the length of a right triangle's long side, without overflow on the way;
* `narrow` and `widen` pass between the 64-bit and the 32-bit format;
* `rank` places every bit pattern, zeros, infinities and not-a-numbers included, on one line.
-/

namespace ShapeGrammar.Number

open Float.Model (UnpackedFloat)
open Float.Model.UnpackedFloat (Sign)

/-- The double nearest to `± m * 2 ^ e`: a half goes to the even mantissa, overflow to infinity. -/
def nearest (sign : Sign) (m : Nat) (e : Int) : Float :=
  .ofModel (.pack (.round .binary64 sign m e))

/-- The 32-bit number nearest to `± m * 2 ^ e`, by the same rule as `nearest`. -/
def nearestSingle (sign : Sign) (m : Nat) (e : Int) : Float32 :=
  .ofModel (.pack (.round .binary32 sign m e))

/-- Positive infinity. -/
def infinity : Float := .ofModel (.pack (.infinity .positive))

/-- The one not-a-number value. -/
def notANumber : Float := .ofModel (.pack .notANumber)

/-- The whole number nearest to `x`, a half going away from zero.  A double whose exponent is not
negative is whole already, and so are the zeros; infinities and not-a-number stay as they are. -/
def roundHalfAway (x : Float) : Float :=
  match x.toModel.unpack with
  | .finite sign m (.negSucc k) _ => nearest sign ((m + (1 <<< k)) >>> (k + 1)) 0
  | _ => x

/-- The least whole number that is not below `x`, if `x` is finite. -/
def ceiling? (x : Float) : Option Int :=
  match x.toModel.unpack with
  | .finite sign m (.ofNat k) _ => some (sign.apply (m <<< k : Nat))
  | .finite sign m (.negSucc k) _ => some (-(sign.apply (-(m : Int)) >>> (k + 1)))
  | .zero _ => some 0
  | _ => none

/-! ### The length of a hypotenuse -/

/-- Mantissa and exponent of a finite double without its sign; a zero has mantissa `0`. -/
def magnitude : UnpackedFloat → Nat × Int
  | .finite _ m e _ => (m, e)
  | _ => (0, 0)

/-- The square root of `n * 2 ^ (2 * e)`, rounded once. -/
def nearestRoot (n : Nat) (e : Int) : Float :=
  if h : 0 < n then .ofModel (.pack (.sqrt .binary64 (.finite .positive n (2 * e) h))) else 0

/-- The square root of `x * x + y * y`, rounded once.  Nothing overflows or underflows in between,
and an infinite side wins over a side that is not a number.  Libraries leave the last bit of their
`hypot` open; this one is always the nearest double. -/
def hypot (x y : Float) : Float :=
  if x.isInf || y.isInf then infinity
  else if x.isNaN || y.isNaN then notANumber
  else
    let (m₁, e₁) := magnitude x.toModel.unpack
    let (m₂, e₂) := magnitude y.toModel.unpack
    let e := min e₁ e₂
    let a := m₁ <<< (e₁ - e).toNat
    let b := m₂ <<< (e₂ - e).toNat
    nearestRoot (a * a + b * b) e

/-! ### Between the two formats -/

/-- `x` rounded to the 32-bit format. -/
def narrow (x : Float) : Float32 :=
  match x.toModel.unpack with
  | .finite sign m e _ => nearestSingle sign m e
  | special => .ofModel (.pack special)

/-- `x` in the 64-bit format, which holds every 32-bit number exactly. -/
def widen (x : Float32) : Float :=
  match x.toModel.unpack with
  | .finite sign m e _ => nearest sign m e
  | special => .ofModel (.pack special)

/-! ### A total order -/

/-- The bits of a not-a-number, which has a sign and a payload.  The format has many of them, while
`Float` has one for all. -/
structure NaN where
  bits : UInt64
  isNaN : (Float.ofBits bits).isNaN = true

/-- The negative not-a-number that operations without a result give, as when infinity is taken from
infinity. -/
def NaN.invalid : NaN := ⟨0xfff8000000000000, by decide +kernel⟩

/-- The bits of `x`, which is meant to be `nan` if it is not a number. -/
def bitsOf (nan : NaN) (x : Float) : UInt64 := if x.isNaN then nan.bits else x.toBits

/-- The place of a bit pattern on one line of all of them: the negative not-a-numbers, negative
infinity, the negative numbers, negative zero, zero, the positive numbers, positive infinity, the
positive not-a-numbers. -/
def rank (bits : UInt64) : Int :=
  let size := (bits &&& 0x7fffffffffffffff).toNat
  if bits >>> 63 == 1 then -(size : Int) - 1 else size

end ShapeGrammar.Number
