import ShapeGrammar.Number.Exact

/-!
# Points of the plane and closed outlines

An outline is a list of vertices, read as a closed chain: `sides` lists its edges, from the one that
leaves the first vertex to the one that returns to it.  Area, centroid, bounding box and the
even-odd test are folds over vertices or sides, in that order, so that rounding happens in the order
in which the outline is written.

Coordinates are compared on a grid of step `2 ^ -20`, fine enough to be invisible and coarse enough
to absorb what scaling and moving round away.
-/

namespace ShapeGrammar

/-- A point of the plane. -/
structure Point where
  x : Float
  y : Float
deriving DecidableEq

/-! ### The coordinate grid -/

/-- The step of the coordinate grid, `2 ^ -20`. -/
def gridStep : Float := Number.nearest .positive 1 (-20)

/-- The multiple of `gridStep` nearest to `v`, a half going away from zero.  A negative zero becomes
zero; what is too large to be counted in grid steps becomes infinite. -/
def snap (v : Float) : Float := Number.roundHalfAway (v / gridStep) * gridStep + 0

namespace Point

/-- The point moved onto the coordinate grid. -/
def snapped (p : Point) : Point := ⟨snap p.x, snap p.y⟩

/-- Both coordinates are finite. -/
def isFinite (p : Point) : Bool := p.x.isFinite && p.y.isFinite

/-- The point scaled about the origin, then moved. -/
def scaleShift (p : Point) (scale dx dy : Float) : Point := ⟨p.x * scale + dx, p.y * scale + dy⟩

/-- The point moved. -/
def shift (p : Point) (dx dy : Float) : Point := ⟨p.x + dx, p.y + dy⟩

/-- `p` has the smaller `y`, or the same `y` and the smaller `x`. -/
def before (p q : Point) : Bool := p.y < q.y || p.y == q.y && p.x < q.x

end Point

/-! ### Sums -/

/-- The sum of a list in its order.  An empty sum is negative zero, the number that changes no other
when it is added. -/
def total (xs : List Float) : Float := xs.foldl (· + ·) (-0.0)

/-! ### Closed outlines -/

namespace Outline

/-- The sides of the closed chain, each as its start and its end. -/
def sides (ps : List Point) : List (Point × Point) := ps.zip (ps.drop 1 ++ ps.take 1)

/-- The distance between vertices `i` and `j`; zero if there is no such vertex. -/
def edgeLength (ps : List Point) (i j : Nat) : Float :=
  match ps[i]?, ps[j]? with
  | some a, some b => Number.hypot (b.x - a.x) (b.y - a.y)
  | _, _ => 0

/-- The area enclosed, positive for one winding direction and negative for the other; zero for fewer
than three vertices. -/
def signedArea (ps : List Point) : Float :=
  if ps.length < 3 then 0
  else (sides ps).foldl (fun area (a, b) => area + a.x * b.y - b.x * a.y) 0 * 0.5

/-- The area enclosed, whatever the winding direction. -/
def area (ps : List Point) : Float := (signedArea ps).abs

/-- The least of the values that are numbers. -/
def least (vs : List Float) : Float := vs.foldl (fun m v => if v < m then v else m) Number.infinity

/-- The greatest of the values that are numbers. -/
def greatest (vs : List Float) : Float :=
  vs.foldl (fun m v => if m < v then v else m) (-Number.infinity)

/-- The width of the range of values, zero where there is none. -/
def extent (vs : List Float) : Float :=
  let width := greatest vs - least vs
  if 0 < width then width else 0

/-- The area of the smallest upright rectangle around the vertices. -/
def boxArea (ps : List Point) : Float :=
  if ps.isEmpty then 0 else extent (ps.map Point.x) * extent (ps.map Point.y)

/-- The mean of the vertices; the origin for an empty outline. -/
def centroid (ps : List Point) : Point :=
  let n := Number.nearest .positive (max ps.length 1) 0
  let sum := ps.foldl (fun s p => s.shift p.x p.y) (Point.mk 0 0)
  ⟨sum.x / n, sum.y / n⟩

/-- The side from `a` to `b` passes the height `y`: one end is above it and the other is not. -/
def straddles (y : Float) (a b : Point) : Bool := decide (y < b.y) != decide (y < a.y)

/-- The place at which the line through `a` and `b` has height `y`. -/
def crossing (y : Float) (a b : Point) : Float := (a.x - b.x) * (y - b.y) / (a.y - b.y) + b.x

/-- A ray from `(x, y)` to the right meets the side from `a` to `b`. -/
def meets (x y : Float) (a b : Point) : Bool := straddles y a b && x < crossing y a b

/-- The point lies inside by the even-odd rule: a ray from it meets an odd number of sides. -/
def contains (ps : List Point) (x y : Float) : Bool :=
  3 ≤ ps.length && (sides ps).countP (fun (a, b) => meets x y a b) % 2 == 1

end Outline

end ShapeGrammar
