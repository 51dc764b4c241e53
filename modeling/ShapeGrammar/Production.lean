import ShapeGrammar.Store

/-!
# Productions

A production says: where shapes like those of the pattern are present, scaled and moved by any one
similarity, the shapes of the result may be added.  Pattern and result are given in the production's
own coordinates.

This file holds what can be said of a production without a change of scale: whether a list of
polygons is the pattern moved to the first of them (`Production.fits`), and what would then be added
(`Production.preview`).
-/

namespace ShapeGrammar

/-- A rule that adds the shapes of `result` where those of `pattern` are found. -/
structure Production where
  id : Nat
  pattern : List Shape
  result : List Shape

namespace Production

/-- The number of polygons that the pattern asks for. -/
def arity (p : Production) : Nat := p.pattern.length

/-- The displacement that takes the first vertex of the pattern to that of the first polygon. -/
def offset (p : Production) (found : List Polygon) : Option (Float × Float) :=
  match p.pattern, found with
  | m :: _, q :: _ => some (q.shape.origin.x - m.origin.x, q.shape.origin.y - m.origin.y)
  | _, _ => none

/-- The two lists hold the same keys, repetitions aside. -/
def sameKeys (ks ls : List Key) : Bool :=
  ks.eraseDups.length == ls.eraseDups.length && ls.all ks.contains

/-- The polygons are the pattern, moved onto the first of them: as many polygons as pattern shapes,
and the same keys. -/
def fits (p : Production) (found : List Polygon) : Bool :=
  !p.pattern.isEmpty && found.length == p.arity &&
    match p.offset found with
    | none => false
    | some (dx, dy) => sameKeys (p.pattern.map fun m => m.keyAt 1 dx dy) (found.map Polygon.key)

/-- The shapes that the production would add to `found` without a change of scale.  A result that is
one of the polygons found is kept and not added; a single result that is not admitted rejects all of
them; and a result whose key is taken is left out. -/
def preview (p : Production) (found : List Polygon) (admits : Shape → Bool) (taken : Key → Bool) :
    List Shape :=
  match p.offset found with
  | none => []
  | some (dx, dy) =>
    let kept := found.map Polygon.key
    let fresh := (p.result.map fun r => r.shifted dx dy).filter fun s => !kept.contains s.key
    if fresh.all admits then fresh.filter fun s => !taken s.key else []

end Production

/-- The productions with these patterns and results, numbered from one. -/
def grammar (rules : List (List Shape × List Shape)) : List Production :=
  rules.zipIdx.map fun ((pattern, result), i) => ⟨i + 1, pattern, result⟩

end ShapeGrammar
