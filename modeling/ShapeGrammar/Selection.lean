import ShapeGrammar.Proposal
import ShapeGrammar.Random.Generator

/-!
# Choosing among proposals

`weighted` chooses in proportion to scores: it draws a number below their total and walks through
the list, subtracting score after score, until nothing is left.  Where the total is no use for
that, and in `uniform`, every proposal is as likely as any other.  `under` is the choice by
pointing.

All three answer with the position of the choice in the list, which is what a caller can check.
-/

namespace ShapeGrammar

namespace Selection

/-- A position below `n`, all equally likely. -/
def uniform (n : Nat) (g : Generator) : Option Nat × Generator :=
  if n = 0 then (none, g)
  else
    let (i, g) := g.below n
    (some i, g)

/-- The position of the weight at which `rest` is used up, counted from `i`; the last position if
rounding leaves something over. -/
def walk (rest : Float) (i : Nat) : List Float → Nat
  | [] => i - 1
  | w :: ws =>
    let rest := rest - w
    if rest ≤ 0 then i else walk rest (i + 1) ws

/-- A position, as likely as its weight says.  All are equally likely if the weights do not add up
to a finite number above zero. -/
def weighted (weights : List Float) (g : Generator) : Option Nat × Generator :=
  if weights.isEmpty then (none, g)
  else
    let sum := total weights
    if sum ≤ 0 || !sum.isFinite then uniform weights.length g
    else
      let (u, g) := g.unit
      (some (walk (u * sum) 0 weights), g)

/-- The position of the first proposal that would add something at the point. -/
def under (proposals : List Proposal) (p : Point) : Option Nat :=
  proposals.findIdx? fun c => c.covers p.x p.y

end Selection

end ShapeGrammar
