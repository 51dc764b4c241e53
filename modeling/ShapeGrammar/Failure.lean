import ShapeGrammar.Decimal.Layout

/-!
# What can go wrong at the edges

Growing a scene never fails: degenerate geometry is passed over in silence.  What can fail is making
a shape, choosing a scene, sizing the canvas, allocating pixels and reading a data file.  Each cause
is a constructor of `Failure`, and its wording is in `Failure.message`.
-/

namespace ShapeGrammar

/-- Why a data file was not understood, found at the first such place from the left. -/
inductive TextFault where
  /-- The text ends too early. -/
  | ended
  /-- The text breaks the rules of the data format. -/
  | malformed
  /-- The text is well formed so far but says something of the wrong form. -/
  | mismatched
deriving DecidableEq

/-- The side of the canvas that a setting gives. -/
inductive CanvasSide where
  | width
  | height
deriving DecidableEq

/-- The name of the setting. -/
def CanvasSide.setting : CanvasSide → String
  | .width => "canvas_width"
  | .height => "canvas_height"

/-- The largest canvas side, in pixels. -/
def maxCanvasSide : Nat := 32768

/-- A cause of failure. -/
inductive Failure where
  /-- A shape with only `count` vertices. -/
  | tooFewPoints (count : Nat)
  /-- A shape whose vertex `index` is the first that is not finite. -/
  | nonFinitePoint (index : Nat)
  /-- There is no scene of this name. -/
  | unknownScene (key : String)
  /-- A canvas side that is no number of pixels from one to `maxCanvasSide`. -/
  | canvasSide (side : CanvasSide) (value : Float)
  /-- An image without pixels, or one whose rows are too long. -/
  | imageSize (width height : Nat)
  /-- A text that cannot be read. -/
  | unreadable (fault : TextFault)
deriving DecidableEq

/-- The wording of a failure; a text that cannot be read has none. -/
def Failure.message : Failure → Option String
  | .tooFewPoints count => some ("a polygon needs at least 3 points, got " ++ toString count)
  | .nonFinitePoint index => some ("polygon point " ++ toString index ++ " is not finite")
  | .unknownScene key => some ("unknown preset `" ++ key ++ "`")
  | .canvasSide side value =>
    some ("invalid settings: " ++ side.setting ++ " must be within 1..=" ++ toString maxCanvasSide
      ++ ", got " ++ Number.plain value)
  | .imageSize width height =>
    some ("render: cannot allocate a " ++ toString width ++ "x" ++ toString height ++ " pixmap")
  | .unreadable _ => none

end ShapeGrammar
