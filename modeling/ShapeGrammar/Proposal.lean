import ShapeGrammar.Production

/-!
# Proposals

A proposal is one way in which a production can be applied to a store: the similarity, the polygons
found, and the shapes to add.  It speaks of the store it was computed from.
-/

namespace ShapeGrammar

/-- A uniform scaling about the origin followed by a displacement. -/
structure Similarity where
  scale : Float
  dx : Float
  dy : Float
deriving DecidableEq

/-- The image of a point. -/
def Similarity.apply (t : Similarity) (p : Point) : Point := p.scaleShift t.scale t.dx t.dy

/-- The key of a shape under a similarity. -/
def Shape.keyUnder (s : Shape) (t : Similarity) : Key := s.keyAt t.scale t.dx t.dy

/-- The image of a shape under a similarity, on the coordinate grid. -/
def Shape.under (s : Shape) (t : Similarity) : Shape := s.placed t.scale t.dx t.dy

/-- One way to apply a production. -/
structure Proposal where
  production : Production
  /-- The polygons found, in the order of the pattern. -/
  found : List Polygon
  /-- The shapes to add. -/
  additions : List Shape
  similarity : Similarity

namespace Proposal

/-- The numbers of the polygons found. -/
def foundIds (p : Proposal) : List Nat := p.found.map Polygon.id

/-- What a shape counts in a weighted choice: its area, or that of its box if it encloses none. -/
def weight (s : Shape) : Float := if 0 < s.area then s.area else Outline.boxArea s.vertices

/-- The total weight of the shapes to add. -/
def score (p : Proposal) : Float := total (p.additions.map weight)

/-- One of the shapes to add contains the point. -/
def covers (p : Proposal) (x y : Float) : Bool := p.additions.any fun s => s.contains x y

end Proposal

end ShapeGrammar
