import ShapeGrammar.Decimal.Shortest

/-!
# How numbers are written

Two layouts share the digits of `Decimal.Binary.shortest`:

* `plain` never uses an exponent and writes whole numbers without a point.  Shape keys and messages
  use it.
* `data` is the layout of data files: whole numbers end in `.0`, and very large or very small
  numbers have one digit before the point and a signed exponent.  Infinities and not-a-number have
  no text there.
-/

namespace ShapeGrammar

open Float.Model (Format UnpackedFloat)
open Float.Model.UnpackedFloat (Sign)

namespace Decimal

/-- The decimal digits of the number without its power of ten. -/
def digitText (d : Decimal) : List Char := Nat.toDigits 10 d.digits

/-- The digits with the point where it belongs, filled with zeros; no point in a whole number. -/
def positional (d : Decimal) : List Char :=
  let ds := d.digitText
  match d.exponent with
  | .ofNat k => ds ++ List.replicate k '0'
  | .negSucc k =>
    let places := k + 1
    if places < ds.length then
      ds.take (ds.length - places) ++ '.' :: ds.drop (ds.length - places)
    else
      '0' :: '.' :: (List.replicate (places - ds.length) '0' ++ ds)

/-- The exponent of the first digit. -/
def leadingExponent (d : Decimal) : Int := d.exponent + d.digitText.length - 1

/-- One digit, the other digits as a fraction, and the exponent with its sign. -/
def scientific (d : Decimal) : List Char :=
  let fraction : List Char → List Char
    | [] => []
    | ds => '.' :: ds
  let sign := if d.leadingExponent < 0 then '-' else '+'
  d.digitText.take 1 ++ fraction (d.digitText.drop 1)
    ++ 'e' :: sign :: Nat.toDigits 10 d.leadingExponent.natAbs

/-- `positional` with at least one digit after the point. -/
def pointed (d : Decimal) : List Char :=
  if 0 ≤ d.exponent then d.positional ++ ['.', '0'] else d.positional

/-- The layout of data files: `pointed` from `10 ^ low` to below `10 ^ high`, else `scientific`. -/
def dataText (low high : Int) (d : Decimal) : List Char :=
  if low ≤ d.leadingExponent && d.leadingExponent < high then d.pointed else d.scientific

end Decimal

namespace Number

/-- A minus sign before the text of a negative number. -/
def signed : Sign → List Char → List Char
  | .negative, text => '-' :: text
  | .positive, text => text

/-- A double without an exponent: the shortest digits, of two equally near ones the larger. -/
def plain (x : Float) : String :=
  match x.toModel.unpack with
  | .notANumber => "NaN"
  | .infinity sign => String.ofList (signed sign ['i', 'n', 'f'])
  | .zero sign => String.ofList (signed sign ['0'])
  | .finite sign m e _ =>
    String.ofList (signed sign (((Decimal.Binary.ofFormat .binary64 m e).shortest .up).positional))

/-- A 32-bit number in the layout of `plain`, with the digits that its own format needs. -/
def plainSingle (x : Float32) : String :=
  match x.toModel.unpack with
  | .notANumber => "NaN"
  | .infinity sign => String.ofList (signed sign ['i', 'n', 'f'])
  | .zero sign => String.ofList (signed sign ['0'])
  | .finite sign m e _ =>
    String.ofList (signed sign (((Decimal.Binary.ofFormat .binary32 m e).shortest .up).positional))

/-- A number of `format` in the layout of data files, of two equally near digit strings the even
one; `none` for what has no text there. -/
def dataText? (format : Format) (low high : Int) : UnpackedFloat → Option (List Char)
  | .notANumber => none
  | .infinity _ => none
  | .zero sign => some (signed sign ['0', '.', '0'])
  | .finite sign m e _ =>
    some (signed sign (((Decimal.Binary.ofFormat format m e).shortest .even).dataText low high))

/-- A double in the layout of data files. -/
def data? (x : Float) : Option (List Char) := dataText? .binary64 (-5) 16 x.toModel.unpack

/-- A 32-bit number in the layout of data files. -/
def dataSingle? (x : Float32) : Option (List Char) := dataText? .binary32 (-6) 13 x.toModel.unpack

end Number

end ShapeGrammar
