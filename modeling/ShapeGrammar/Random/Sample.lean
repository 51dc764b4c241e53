import ShapeGrammar.Random.Generator

/-!
# Samples without repetition

`Generator.sample length amount` draws `amount` different numbers below `length`.  Large samples are
the front of a partly shuffled list of all numbers; small samples are collected one by one, where a
number that comes up again makes room for the newest candidate.

A `Cycle` is an endless stream of such numbers.  It goes through the population in passes without
repetition, and draws a pass only when it is reached and only as much of it as will be used.  How a
pass is drawn is up to its `Sampler`; `Generator.sample` is the one that is used.
-/

namespace ShapeGrammar

/-- A way to draw samples: given how many numbers there are and how many of them are wanted, it gives
the numbers drawn and the generator to go on with. -/
abbrev Sampler : Type := Nat → Nat → Generator → List Nat × Generator

namespace Generator

/-- One step of `collected`: `j` is the newest candidate. -/
def collectStep (acc : List Nat × Generator) (j : Nat) : List Nat × Generator :=
  let (t, g) := acc.2.below (j + 1)
  (acc.1.replace t j ++ [t], g)

/-- A sample collected one by one. -/
def collected (length amount : Nat) (g : Generator) : List Nat × Generator :=
  ((List.range amount).map (length - amount + ·)).foldl collectStep ([], g)

/-- One step of `shuffled`: place `i` gets one of the entries from there on. -/
def shuffleStep (length : Nat) (acc : Array Nat × Generator) (i : Nat) : Array Nat × Generator :=
  let (k, g) := acc.2.below (length - i)
  (acc.1.swapIfInBounds i (i + k), g)

/-- A sample from the front of a partly shuffled list of all numbers. -/
def shuffled (length amount : Nat) (g : Generator) : List Nat × Generator :=
  let (all, g) := (List.range amount).foldl (shuffleStep length) (Array.range length, g)
  (all.toList.take amount, g)

/-- The sample is large enough for its population to be worth shuffling.  The bound for samples of
middling size is computed in the 32-bit format. -/
def worthShuffling (length amount : Nat) : Bool :=
  if 163 ≤ amount then length < 270 * amount
  else
    let size := amount.toFloat32
    11 < amount && length.toFloat32 < (10 + 1.6 * size) * size

/-- `amount` different numbers below `length`, for `amount` at most `length`.  Where a large population
is not worth shuffling, libraries may reject repetitions instead, so that this is one way to draw
among others; what is said about searches holds for any way that draws samples. -/
def sample : Sampler := fun length amount g =>
  if worthShuffling length amount then g.shuffled length amount else g.collected length amount

end Generator

/-- An endless stream of numbers below `population`, in passes without repetition. -/
structure Cycle where
  population : Nat
  /-- What is left of the current pass. -/
  pass : List Nat
  /-- How passes are drawn. -/
  sampler : Sampler

namespace Cycle

/-- The stream before its first pass. -/
def ofSize (population : Nat) (sampler : Sampler := Generator.sample) : Cycle :=
  ⟨population, [], sampler⟩

/-- The next number.  At most `wanted` more will be asked for, this one included, and so no more of
a new pass is drawn.  There is nothing to draw from an empty population. -/
def draw (c : Cycle) (wanted : Nat) (g : Generator) : Option (Nat × Cycle) × Generator :=
  if c.population == 0 || wanted == 0 then (none, g)
  else
    match c.pass with
    | i :: pass => (some (i, { c with pass := pass }), g)
    | [] =>
      match c.sampler c.population (min wanted c.population) g with
      | (i :: pass, g) => (some (i, { c with pass := pass }), g)
      | ([], g) => (none, g)

end Cycle

end ShapeGrammar
