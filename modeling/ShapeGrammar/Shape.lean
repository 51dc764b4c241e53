import ShapeGrammar.Failure
import ShapeGrammar.Plane

/-!
# Shapes and their keys

A `Shape` is a closed outline of at least three vertices with the colours it is drawn in.  What
makes two shapes the same is their `Key`: the vertices on the coordinate grid, listed from the
lowest one on.  Style is no part of it, and neither is the vertex at which the outline happens to
start; the winding direction is, so that a reflected shape is another shape.

`Shape.keyAt` is the key that a shape gets when it is scaled and moved, and `Shape.placed` is the
shape so moved.
-/

namespace ShapeGrammar

/-! ### Style -/

/-- A colour with opacity; every channel runs from zero to one. -/
structure Color where
  red : Float32
  green : Float32
  blue : Float32
  alpha : Float32
deriving BEq

namespace Color

/-- Opaque black. -/
def black : Color := ⟨0, 0, 0, 1⟩

/-- The channels, opacity last. -/
def channels (c : Color) : List Float32 := [c.red, c.green, c.blue, c.alpha]

end Color

/-- How a shape is drawn.  Growth carries styles along and never looks at them. -/
structure Style where
  /-- The colour of the outline, if it is drawn. -/
  stroke : Option Color
  /-- The colour of the inside, if it is filled. -/
  fill : Option Color
deriving BEq

/-- A black outline without a fill. -/
def Style.plain : Style := ⟨some .black, none⟩

/-! ### Keys -/

/-- The identity of a shape: its vertices on the coordinate grid, from the lowest one on. -/
structure Key where
  vertices : List Point
deriving DecidableEq

namespace Key

/-- The index of the first vertex that no other comes before.  `best` is the lowest vertex so
far, `bestIndex` its index, and `i` the index of the next vertex. -/
def lowestFrom (best : Point) (bestIndex : Nat) (i : Nat) : List Point → Nat
  | [] => bestIndex
  | p :: ps =>
    if p.before best then lowestFrom p i (i + 1) ps else lowestFrom best bestIndex (i + 1) ps

/-- The index of the first lowest vertex. -/
def lowestIndex : List Point → Nat
  | [] => 0
  | p :: ps => lowestFrom p 0 1 ps

/-- The key of an outline on the grid: the same cycle, started at the first lowest vertex. -/
def ofSnapped (ps : List Point) : Key :=
  let start := lowestIndex ps
  ⟨ps.drop start ++ ps.take start⟩

/-- The key as text: `x,y` for each vertex, with bars in between. -/
def text (k : Key) : String :=
  String.intercalate "|" (k.vertices.map fun p => Number.plain p.x ++ "," ++ Number.plain p.y)

/-- The bit patterns of all coordinates, which tell any two keys apart. -/
def code (k : Key) : List UInt64 := k.vertices.flatMap fun p => [p.x.toBits, p.y.toBits]

theorem toBits_injective {x y : Float} (h : x.toBits = y.toBits) : x = y := by
  obtain ⟨⟨a, _⟩⟩ := x
  obtain ⟨⟨b, _⟩⟩ := y
  obtain rfl : a = b := h
  rfl

theorem code_injective {k l : Key} (h : k.code = l.code) : k = l := by
  obtain ⟨ps⟩ := k
  obtain ⟨qs⟩ := l
  simp only [code] at h
  congr 1
  induction ps generalizing qs with
  | nil => cases qs <;> simp_all
  | cons p ps ih =>
    cases qs with
    | nil => simp at h
    | cons q qs =>
      simp only [List.flatMap_cons, List.cons_append, List.nil_append, List.cons.injEq] at h
      obtain ⟨hx, hy, ht⟩ := h
      rw [ih qs ht]
      congr 1
      obtain ⟨x, y⟩ := p
      obtain ⟨x', y'⟩ := q
      obtain rfl : x = x' := toBits_injective hx
      obtain rfl : y = y' := toBits_injective hy
      rfl

/-- Keys are ordered by their bit patterns, only so that an index can be searched. -/
instance : Ord Key := ⟨fun k l => compare k.code l.code⟩

instance : Std.TransOrd Key :=
  inferInstanceAs (Std.TransCmp (compareOn code))

instance : Std.LawfulEqOrd Key where
  eq_of_compare h := code_injective (Std.LawfulEqOrd.eq_of_compare h)

end Key

/-! ### Shapes -/

/-- A closed outline of at least three vertices, with a style. -/
structure Shape where
  vertices : List Point
  style : Style
  three_le : 3 ≤ vertices.length

namespace Shape

/-- The shape with these vertices: at least three of them, and all finite. -/
def ofPoints (ps : List Point) (style : Style) : Except Failure Shape :=
  if h : 3 ≤ ps.length then
    match ps.findIdx? (fun p => !p.isFinite) with
    | some index => .error (.nonFinitePoint index)
    | none => .ok ⟨ps, style, h⟩
  else .error (.tooFewPoints ps.length)

/-- The first vertex. -/
def origin (s : Shape) : Point :=
  s.vertices.get ⟨0, Nat.lt_of_lt_of_le (by decide) s.three_le⟩

/-- The key of the shape. -/
def key (s : Shape) : Key := .ofSnapped (s.vertices.map Point.snapped)

/-- The shape scaled about the origin, moved, and put on the coordinate grid. -/
def placed (s : Shape) (scale dx dy : Float) : Shape where
  vertices := s.vertices.map fun p => (p.scaleShift scale dx dy).snapped
  style := s.style
  three_le := by simpa using s.three_le

/-- The key of the shape scaled and moved, without building that shape. -/
def keyAt (s : Shape) (scale dx dy : Float) : Key :=
  .ofSnapped (s.vertices.map fun p => (p.scaleShift scale dx dy).snapped)

/-- The shape moved, with no regard to the grid. -/
def shifted (s : Shape) (dx dy : Float) : Shape where
  vertices := s.vertices.map fun p => p.shift dx dy
  style := s.style
  three_le := by simpa using s.three_le

/-- The length of the first edge, from which scales are derived. -/
def referenceEdge (s : Shape) : Float := Outline.edgeLength s.vertices 0 1

/-- The mean of the vertices. -/
def centroid (s : Shape) : Point := Outline.centroid s.vertices

/-- The area enclosed. -/
def area (s : Shape) : Float := Outline.area s.vertices

/-- The point lies inside by the even-odd rule. -/
def contains (s : Shape) (x y : Float) : Bool := Outline.contains s.vertices x y

end Shape

end ShapeGrammar
