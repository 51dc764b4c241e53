import ShapeGrammar.Shape

/-!
# Regions that shapes must stay in

A `Region` is an upright rectangle with a small slack.  `Region.admits` looks at vertices only, so
an outline is inside when all its corners are.  Where any condition on shapes will do, the library
takes a function `Shape → Bool`, and a region is used through `admits`.
-/

namespace ShapeGrammar

/-- An upright rectangle and the slack allowed around it. -/
structure Region where
  minX : Float
  minY : Float
  maxX : Float
  maxY : Float
  slack : Float

namespace Region

/-- The slack that makes up for rounding. -/
def defaultSlack : Float := 1e-6

/-- The rectangle from the origin to `(width, height)`. -/
def canvas (width height : Float) : Region := ⟨0, 0, width, height, defaultSlack⟩

/-- The horizontal extent. -/
def width (r : Region) : Float := r.maxX - r.minX

/-- The vertical extent. -/
def height (r : Region) : Float := r.maxY - r.minY

/-- The point lies in the rectangle, give or take the slack. -/
def holds (r : Region) (p : Point) : Bool :=
  r.minX - r.slack ≤ p.x && r.minY - r.slack ≤ p.y && p.x ≤ r.maxX + r.slack
    && p.y ≤ r.maxY + r.slack

/-- Every vertex of the shape lies in the region. -/
def admits (r : Region) (s : Shape) : Bool := s.vertices.all r.holds

end Region

end ShapeGrammar
