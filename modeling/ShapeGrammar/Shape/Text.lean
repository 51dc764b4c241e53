import ShapeGrammar.Json.Printer
import ShapeGrammar.Json.Reader
import ShapeGrammar.Shape

/-!
# Shapes in data files

A shape is written as an object with its points and its style.  It is read from that object, in
which the style may be missing, or from the list of the two; points and styles have the same two
forms.  A colour that is `null` or missing is none.

A shape that is read has passed the checks of `Shape.ofPoints`.
-/

namespace ShapeGrammar

open Json

/-! ### Reading -/

/-- Both coordinates of a point, as far as they have been read. -/
structure PartialPoint where
  x : Option Float
  y : Option Float

/-- A point: `x` and `y`. -/
def readPoint : Reader Point :=
  readRecord (PartialPoint.mk none none) ["x", "y"]
    (fun p name =>
      match name with
      | "x" => place p.x readFloat fun x => { p with x := some x }
      | "y" => place p.y readFloat fun y => { p with y := some y }
      | _ => .unknown)
    (fun _ p => do return ⟨← required p.x, ← required p.y⟩)

/-- A colour: a list of four channels, opacity last. -/
def readColor : Reader Color
  | [] => .error .ended
  | .openList :: ts => do
    let (red, ts) ← readElement readSingle true ts
    let (green, ts) ← readElement readSingle false ts
    let (blue, ts) ← readElement readSingle false ts
    let (alpha, ts) ← readElement readSingle false ts
    return (⟨red, green, blue, alpha⟩, ← takeCloseList ts)
  | t :: _ => .error t.unexpected

/-- The colours of a style, as far as they have been read. -/
structure PartialStyle where
  stroke : Option (Option Color)
  fill : Option (Option Color)

/-- A style: `stroke` and `fill`.  In an object, a missing colour is none. -/
def readStyle : Reader Style :=
  readRecord (PartialStyle.mk none none) ["stroke", "fill"]
    (fun s name =>
      match name with
      | "stroke" => place s.stroke (readOption readColor) fun c => { s with stroke := some c }
      | "fill" => place s.fill (readOption readColor) fun c => { s with fill := some c }
      | _ => .unknown)
    (fun form s =>
      match form with
      | .named => .ok ⟨s.stroke.getD none, s.fill.getD none⟩
      | .listed => do return ⟨← required s.stroke, ← required s.fill⟩)

/-- The members of a shape, as far as they have been read. -/
structure PartialShape where
  points : Option (List Point)
  style : Option Style

/-- A shape before it is checked: `points` and `style`, of which the style may be missing. -/
def readOutline : Reader (List Point × Style) :=
  readRecord (PartialShape.mk none none) ["points", "style"]
    (fun s name =>
      match name with
      | "points" => place s.points (readList readPoint) fun ps => { s with points := some ps }
      | "style" => place s.style readStyle fun style => { s with style := some style }
      | _ => .unknown)
    (fun _ s => do return (← required s.points, s.style.getD .plain))

/-- The shape that a text says. -/
def Shape.ofText (text : String) : Except Failure Shape := do
  let ((points, style), rest) ← (readOutline (tokens text.toList)).mapError .unreadable
  let shape ← Shape.ofPoints points style
  (atEnd rest).mapError .unreadable
  return shape

/-! ### Writing -/

/-- A point as an object. -/
def Point.toJson (p : Point) : Value := .object [("x", .double p.x), ("y", .double p.y)]

/-- A colour as a list of its channels. -/
def Color.toJson (c : Color) : Value := .list (c.channels.map .single)

/-- A style as an object. -/
def Style.toJson (s : Style) : Value :=
  .object [
    ("stroke", .optional (s.stroke.map Color.toJson)),
    ("fill", .optional (s.fill.map Color.toJson))]

/-- A shape as an object. -/
def Shape.toJson (s : Shape) : Value :=
  .object [("points", .list (s.vertices.map Point.toJson)), ("style", s.style.toJson)]

/-- The text of a shape. -/
def Shape.toText (s : Shape) : String := s.toJson.compact

end ShapeGrammar
