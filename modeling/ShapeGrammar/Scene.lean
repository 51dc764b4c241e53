import ShapeGrammar.Growth

/-!
# Ready-made scenes

A scene is a set of productions with the shapes it starts from.  Scenes are made for a canvas and
put their seeds in its middle, so making one fails if the canvas has no middle.  `Scene.install`
replaces whatever a growth was doing by a scene.
-/

namespace ShapeGrammar

/-- Productions and the shapes they start from. -/
structure Scene where
  name : String
  productions : List Production
  seeds : List Shape

namespace Scene

/-- The height of an equilateral triangle with sides of length one. -/
def triangleHeight : Float := 0.866025403784

/-- A shape in the plain style. -/
def outline (ps : List (Float × Float)) : Except Failure Shape :=
  Shape.ofPoints (ps.map fun (x, y) => ⟨x, y⟩) .plain

/-- An upright rectangle with opposite corners `(x₀, y₀)` and `(x₁, y₁)`, from the first corner
along its left side. -/
def quad (x₀ y₀ x₁ y₁ : Float) : Except Failure Shape :=
  outline [(x₀, y₀), (x₀, y₁), (x₁, y₁), (x₁, y₀)]

/-- The rule that adds the quads with these corners to the quad `base`. -/
def quadRule (base : Float × Float × Float × Float) (added : List (Float × Float × Float × Float)) :
    Except Failure (List Shape × List Shape) := do
  let (x₀, y₀, x₁, y₁) := base
  let pattern ← quad x₀ y₀ x₁ y₁
  let result ← added.mapM fun (x₀, y₀, x₁, y₁) => quad x₀ y₀ x₁ y₁
  return ([pattern], result)

/-- The rule that adds the triangle to a triangle with a base of length one hundred. -/
def triangleRule (added : List (Float × Float)) : Except Failure (List Shape × List Shape) := do
  let whole ← outline [(0, 0), (50, -100 * triangleHeight), (100, 0)]
  let part ← outline added
  return ([whole], [part])

/-- Triangles in the corners of triangles. -/
def triangle (cx cy : Float) : Except Failure Scene := do
  let h := triangleHeight
  let rules ← [
    [(0, 0), (25, -50 * h), (50, 0)],
    [(25, -50 * h), (50, -100 * h), (75, -50 * h)],
    [(50, 0), (75, -50 * h), (100, 0)]].mapM triangleRule
  let side : Float := 512
  let seed ← outline [
    (cx - side / 2, cy + side * h / 2), (cx, cy - side * h / 2), (cx + side / 2, cy + side * h / 2)]
  return ⟨"Sierpinski Triangle", grammar rules, [seed]⟩

/-- Eight small squares around every square.  The frame is skewed by one unit, so that the rule
never applies to it. -/
def sponge (cx cy : Float) : Except Failure Scene := do
  let rule ← quadRule (0, 0, 3, 3) [
    (-2, 4, -1, 5), (-2, -2, -1, -1), (4, -2, 5, -1), (4, 4, 5, 5),
    (1, -2, 2, -1), (1, 4, 2, 5), (-2, 1, -1, 2), (4, 1, 5, 2)]
  let s : Float := 512
  let frame ← outline [
    (cx - s / 2, cy - s / 2), (cx - s / 2, cy + s / 2),
    (cx + s / 2, cy + s / 2 + 1), (cx + s / 2, cy - s / 2 + 1)]
  let core ← quad (cx - s / 6) (cy - s / 6) (cx + s / 6) (cy + s / 6)
  return ⟨"Menger Sponge", grammar [rule], [frame, core]⟩

/-- Squares of half the size at the sides of every square. -/
def halfSquares (cx cy : Float) : Except Failure Scene := do
  let rules ← [
    (64, 0, 96, 32), (-32, 32, 0, 64), (32, 64, 64, 96), (0, -32, 32, 0)].mapM fun q =>
      quadRule (0, 0, 64, 64) [q]
  let s : Float := 256
  let seed ← quad (cx - s / 2) (cy - s / 2) (cx + s / 2) (cy + s / 2)
  return ⟨"Half Cubes", grammar rules, [seed]⟩

/-- Upright and flat tiles that take turns. -/
def tiles (cx cy : Float) : Except Failure Scene := do
  let tall : Float × Float × Float × Float := (0, 0, 16, 32)
  let wide : Float × Float × Float × Float := (0, 0, 32, 16)
  let rules ← [
    (tall, (16, 0, 48, 16)), (wide, (0, 16, 16, 48)),
    (tall, (-32, 16, 0, 32)), (wide, (16, -32, 32, 0))].mapM fun (base, q) => quadRule base [q]
  let seed ← quad (cx - 16) (cy - 8) (cx + 16) (cy + 8)
  return ⟨"Tiles", grammar rules, [seed]⟩

/-- The scene with this key, made for a canvas of the given size. -/
def load (key : String) (width height : Float) : Except Failure Scene :=
  let cx := width / 2
  let cy := height / 2
  match key with
  | "tri" => triangle cx cy
  | "sponge" => sponge cx cy
  | "halfrect" => halfSquares cx cy
  | "tiles" => tiles cx cy
  | _ => .error (.unknownScene key)

/-- A summary of the scene: its name and how many productions and seeds it has. -/
def summary (s : Scene) : String :=
  "Preset \x7b name: \"" ++ s.name ++ "\", productions: " ++ toString s.productions.length
    ++ ", seeds: " ++ toString s.seeds.length ++ " \x7d"

/-- Plant shapes one after the other; the answer is how many took root. -/
def plantAll (g : Growth) : List Shape → Nat × Growth
  | [] => (0, g)
  | shape :: shapes =>
    let (id, g) := g.plant shape
    let (n, g) := plantAll g shapes
    ((if id.isSome then 1 else 0) + n, g)

/-- Replace what a growth was doing by the scene; the answer is how many seeds lie in its region. -/
def install (s : Scene) (g : Growth) : Nat × Growth :=
  let (planted, g) := plantAll g.reset s.seeds
  (planted, g.setProductions s.productions)

end Scene

end ShapeGrammar
