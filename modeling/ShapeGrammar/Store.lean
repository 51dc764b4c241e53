import Std.Data.TreeMap
import ShapeGrammar.Region

/-!
# The store of polygons

The store holds every polygon of a scene twice: in painter's order, for drawing and for searching,
and in an index by key, for looking up.  No two polygons share a key.  A new polygon gets the next
number, and numbers are never used again, not even after the store was cleared.

Painter's order puts what is higher up (a larger `y` of the centroid) first, then what is further to
the right, and keeps what came earlier before what came later where both agree.  The place for a new
polygon is found by bisection.  Coordinates are compared by their bits, in which not-a-numbers have
signs and payloads; as a `Float` does not tell one of them from another, they come with the shape.
-/

namespace ShapeGrammar

/-- What the coordinates of a point are where they are not numbers. -/
structure Point.NaNs where
  x : Number.NaN
  y : Number.NaN

/-- What operations without a result leave. -/
def Point.NaNs.invalid : Point.NaNs := ⟨.invalid, .invalid⟩

/-- A shape in a store, with its number and its key. -/
structure Polygon where
  id : Nat
  key : Key
  shape : Shape
  /-- What the coordinates of the centroid are where they are not numbers. -/
  nans : Point.NaNs

namespace Polygon

/-- The polygon for a shape that gets number `id`. -/
def ofShape (id : Nat) (shape : Shape) (nans : Point.NaNs := .invalid) : Polygon :=
  ⟨id, shape.key, shape, nans⟩

/-- The bits of the `x` of the centroid. -/
def centroidX (p : Polygon) : UInt64 := Number.bitsOf p.nans.x p.shape.centroid.x

/-- The bits of the `y` of the centroid. -/
def centroidY (p : Polygon) : UInt64 := Number.bitsOf p.nans.y p.shape.centroid.y

/-- Painter's order: the centroid with the larger `y` first, then the one with the larger `x`. -/
def paintOrder (p q : Polygon) : Ordering :=
  (compare (Number.rank q.centroidY) (Number.rank p.centroidY)).then
    (compare (Number.rank q.centroidX) (Number.rank p.centroidX))

end Polygon

/-- Bisection between `lo` and `hi`: the first index whose entry fails `p`, if the entries that
satisfy `p` come first. -/
def bisect {α : Type} (p : α → Bool) (xs : Array α) (lo hi : Nat) (h : hi ≤ xs.size) : Nat :=
  if hlt : lo < hi then
    let mid := (lo + hi) / 2
    have hmid : mid < hi := by omega
    have hsize : mid < xs.size := Nat.lt_of_lt_of_le hmid h
    if p xs[mid] then bisect p xs (mid + 1) hi h
    else bisect p xs lo mid (Nat.le_of_lt hsize)
  else lo
termination_by hi - lo

/-- All polygons of a scene. -/
structure Store where
  /-- The polygons in painter's order. -/
  polygons : Array Polygon
  /-- The polygons by key. -/
  index : Std.TreeMap Key Polygon
  /-- The number of the next polygon. -/
  nextId : Nat

namespace Store

/-- The store without polygons; numbers start at one. -/
def empty : Store := ⟨#[], ∅, 1⟩

/-- The polygon with this key. -/
def lookup (s : Store) (k : Key) : Option Polygon := s.index[k]?

/-- There is a polygon with this key. -/
def hasKey (s : Store) (k : Key) : Bool := s.index.contains k

/-- The number of polygons. -/
def size (s : Store) : Nat := s.polygons.size

/-- There are no polygons. -/
def isEmpty (s : Store) : Bool := s.polygons.isEmpty

/-- The polygons in painter's order. -/
def toList (s : Store) : List Polygon := s.polygons.toList

/-- Where a new polygon goes: behind all that painter's order does not put after it. -/
def place (s : Store) (polygon : Polygon) : Nat :=
  bisect (fun p => p.paintOrder polygon != .gt) s.polygons 0 s.polygons.size (Nat.le_refl _)

/-- The store with the shape, and its number; nothing happens if the shape is not admitted or its
key is taken. -/
def insert (s : Store) (admits : Shape → Bool) (shape : Shape) (nans : Point.NaNs := .invalid) :
    Option Nat × Store :=
  if !admits shape || s.hasKey shape.key then (none, s)
  else
    let polygon := Polygon.ofShape s.nextId shape nans
    (some s.nextId,
      { polygons := s.polygons.insertIdxIfInBounds (s.place polygon) polygon
        index := s.index.insert polygon.key polygon
        nextId := s.nextId + 1 })

/-- The store with all shapes that can be inserted one after the other, and their numbers. -/
def insertAll (s : Store) (admits : Shape → Bool) : List Shape → List (Option Nat) × Store
  | [] => ([], s)
  | shape :: shapes =>
    let (id, s) := s.insert admits shape
    let (ids, s) := s.insertAll admits shapes
    (id :: ids, s)

/-- The store without its polygons; numbers go on. -/
def clear (s : Store) : Store := { empty with nextId := s.nextId }

/-- The sum of the squared distances between vertices of the same index. -/
def squaredError (ps qs : List Point) : Float :=
  total ((ps.zip qs).map fun (p, q) =>
    (p.x - q.x) * (p.x - q.x) + (p.y - q.y) * (p.y - q.y))

/-- One step of `nearest`: the polygon replaces the best one so far if it has as many vertices as
the target and a smaller error. -/
def nearer (target : List Point) (limit : Float) (best : Option (Polygon × Float))
    (polygon : Polygon) : Option (Polygon × Float) :=
  if polygon.shape.vertices.length != target.length then best
  else
    let error := squaredError polygon.shape.vertices target
    if error < limit && best.all (fun (_, least) => error < least) then some (polygon, error)
    else best

/-- The polygon nearest to the target, vertex by vertex, among those with as many vertices and an
error below `limit`; of several equally near ones the first. -/
def nearest (s : Store) (target : Shape) (limit : Float) : Option Polygon :=
  (s.toList.foldl (nearer target.vertices limit) none).map Prod.fst

end Store

end ShapeGrammar
