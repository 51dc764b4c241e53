import ShapeGrammar.Proposal
import ShapeGrammar.Subsets

/-!
# Proposals by enumeration

The same question as in `Search`, answered at scale one and without any index: every subset of the
store that has as many polygons as a pattern has shapes, with every member in turn as its first, is
compared with the pattern as a whole.  The number of subsets is exponential in the size of the
pattern; the enumeration is there as a second opinion.
-/

namespace ShapeGrammar

namespace Enumeration

/-- The ways to make one element of a list its first and to keep the others in order. -/
def leaders {α : Type} (xs : List α) : List (List α) :=
  xs.zipIdx.map fun (x, i) => x :: xs.eraseIdx i

/-- The polygons found, in the order of the pattern. -/
def inPatternOrder (found : List Polygon) (t : Similarity) : List Shape → Option (List Polygon)
  | [] => some []
  | m :: ms =>
    match found.find? fun q => q.key == m.keyUnder t with
    | none => none
    | some q => (inPatternOrder found t ms).map (q :: ·)

/-- The proposal of a production for the given polygons, of which the first is the anchor. -/
def propose (store : Store) (admits : Shape → Bool) (p : Production) (found : List Polygon) :
    Option Proposal :=
  if !p.fits found then none
  else
    match p.preview found admits store.hasKey, p.offset found with
    | shape :: shapes, some (dx, dy) =>
      let t : Similarity := ⟨1, dx, dy⟩
      (inPatternOrder found t p.pattern).map fun ordered => ⟨p, ordered, shape :: shapes, t⟩
    | _, _ => none

/-- The proposals of one production: subsets in lexicographic order, and every member of a subset in
turn as the anchor. -/
def ofProduction (store : Store) (admits : Shape → Bool) (p : Production) : List Proposal :=
  if p.arity = 0 then []
  else (choose p.arity store.toList).flatMap fun subset =>
    (leaders subset).filterMap (propose store admits p)

/-- All proposals at scale one, productions outermost. -/
def run (store : Store) (productions : List Production) (admits : Shape → Bool) : List Proposal :=
  productions.flatMap (ofProduction store admits)

end Enumeration

end ShapeGrammar
