import ShapeGrammar.Proposal
import ShapeGrammar.Random.Sample

/-!
# Searching a store for proposals

Every polygon of the store can serve as an anchor for every production.  The first edge of the
anchor against that of the first pattern shape fixes the scale, their first vertices fix the
displacement, and the whole pattern must then be present under that similarity: `Search.propose`
looks it up in the index of the store.  Degenerate geometry yields no proposal, and neither does a
production that would add nothing new or would leave the region.

An exhaustive search tries every pair of a production and an anchor, productions outermost.  A
sampled search tries as many pairs as it was told to, taking productions and anchors from two
independent streams.  Either one stops as soon as it has as many proposals as it was asked for.
-/

namespace ShapeGrammar

/-- Which pairs of a production and an anchor a search tries. -/
inductive Sampling where
  /-- All of them. -/
  | exhaustive
  /-- `count` random ones. -/
  | sampled (count : Nat)
deriving DecidableEq

/-- How many proposals a search keeps when nobody says otherwise. -/
def defaultLimit : Nat := 500

/-- The most pairs that a sampled search tries. -/
def maxSampledPairs : Nat := 65536

namespace Search

/-- The length against which anchors of a production are measured: the first edge of the first
pattern shape.  A production without a pattern, or with an edge of no length there, has none. -/
def patternEdge (p : Production) : Option Float :=
  match p.pattern with
  | [] => none
  | m :: _ => if 0 < m.referenceEdge then some m.referenceEdge else none

/-- The similarity that takes the first pattern shape, with first edge `edge`, to the anchor; the
displacement is put on the coordinate grid. -/
def align (m : Shape) (edge : Float) (anchor : Shape) : Option Similarity :=
  let length := anchor.referenceEdge
  let scale := length / edge
  if length == 0 || !scale.isFinite || scale ≤ 0 then none
  else some {
    scale := scale
    dx := snap (anchor.origin.x - m.origin.x * scale)
    dy := snap (anchor.origin.y - m.origin.y * scale) }

/-- The polygons that the pattern asks for under a similarity, if the store has them all. -/
def findAll (store : Store) (t : Similarity) : List Shape → Option (List Polygon)
  | [] => some []
  | m :: ms =>
    match store.lookup (m.keyUnder t) with
    | none => none
    | some polygon => (findAll store t ms).map (polygon :: ·)

/-- The shapes that a production adds under a similarity where `found` was found.  A result that is
one of the polygons found is kept and not added; a single result that is not admitted rejects all of
them; and a result that the store has already is left out. -/
def additions (store : Store) (p : Production) (admits : Shape → Bool) (t : Similarity)
    (found : List Polygon) : List Shape :=
  let kept := found.map Polygon.key
  let fresh := (p.result.map fun r => r.under t).filter fun s => !kept.contains s.key
  if fresh.all admits then fresh.filter fun s => !store.hasKey s.key else []

/-- The proposal of a production at an anchor. -/
def propose (store : Store) (admits : Shape → Bool) (p : Production) (anchor : Polygon) :
    Option Proposal :=
  match p.pattern, patternEdge p with
  | m :: _, some edge =>
    match align m edge anchor.shape with
    | none => none
    | some t =>
      match findAll store t p.pattern with
      | none => none
      | some found =>
        match additions store p admits t found with
        | [] => none
        | shapes => some ⟨p, found, shapes, t⟩
  | _, _ => none

/-- The first results of `f` along a list, at most `limit` of them; the rest of the list is not
looked at. -/
def firstResults {α β : Type} (f : α → Option β) : Option Nat → List α → List β
  | some 0, _ => []
  | _, [] => []
  | limit, x :: xs =>
    match f x with
    | none => firstResults f limit xs
    | some y => y :: firstResults f (limit.map (· - 1)) xs

/-- The proposals of all productions at all anchors, productions outermost, at most `limit` of
them. -/
def exhaustive (store : Store) (admits : Shape → Bool) :
    Option Nat → List Production → List Proposal
  | _, [] => []
  | limit, p :: ps =>
    let here := firstResults (propose store admits p) limit store.toList
    here ++ exhaustive store admits (limit.map (· - here.length)) ps

/-- The numbers of the next production and the next anchor, when `wanted` pairs are still wanted. -/
def drawPair (productions anchors : Cycle) (wanted : Nat) (g : Generator) :
    Option ((Nat × Nat) × Cycle × Cycle) × Generator :=
  match productions.draw wanted g with
  | (none, g) => (none, g)
  | (some (i, productions), g) =>
    match anchors.draw wanted g with
    | (none, g) => (none, g)
    | (some (j, anchors), g) => (some ((i, j), productions, anchors), g)

/-- The proposals at `wanted` random pairs, at most `limit` of them.  No pair is drawn once there
are enough proposals. -/
def sampled (tryPair : Nat × Nat → Option Proposal) :
    Nat → Option Nat → Cycle → Cycle → Generator → List Proposal × Generator
  | 0, _, _, _, g => ([], g)
  | _, some 0, _, _, g => ([], g)
  | wanted + 1, limit, productions, anchors, g =>
    match drawPair productions anchors (wanted + 1) g with
    | (none, g) => ([], g)
    | (some (pair, productions, anchors), g) =>
      match tryPair pair with
      | none => sampled tryPair wanted limit productions anchors g
      | some proposal =>
        let (proposals, g) := sampled tryPair wanted (limit.map (· - 1)) productions anchors g
        (proposal :: proposals, g)

/-- The proposal of production `i` at anchor `j`. -/
def proposeAt (store : Store) (productions : List Production) (admits : Shape → Bool) :
    Nat × Nat → Option Proposal
  | (i, j) =>
    match productions[i]?, store.polygons[j]? with
    | some p, some anchor => propose store admits p anchor
    | _, _ => none

/-- Search a store for proposals.  Nothing is drawn where there is nothing to find. -/
def run (store : Store) (productions : List Production) (admits : Shape → Bool)
    (sampling : Sampling) (limit : Option Nat) (g : Generator)
    (sampler : Sampler := Generator.sample) : List Proposal × Generator :=
  if store.isEmpty || productions.isEmpty then ([], g)
  else
    match sampling with
    | .exhaustive => (exhaustive store admits limit productions, g)
    | .sampled count =>
      sampled (proposeAt store productions admits) (min count maxSampledPairs) limit
        (.ofSize productions.length sampler) (.ofSize store.size sampler) g

end Search

end ShapeGrammar
