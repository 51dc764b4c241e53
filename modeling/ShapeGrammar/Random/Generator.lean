import ShapeGrammar.Number.Exact

/-!
# A permuted congruential generator

The state is one 64-bit word that moves by a linear congruence modulo `2 ^ 64`; the output permutes
its bits into a 32-bit word.  A generator is a plain value: drawing returns what was drawn together
with the generator to go on with, so equal generators give equal draws.
-/

namespace ShapeGrammar

/-- The state of a generator, and the odd increment that tells its sequence from others. -/
structure Generator where
  state : UInt64
  increment : UInt64
deriving DecidableEq

namespace Generator

/-- The factor of the congruence. -/
def multiplier : UInt64 := 6364136223846793005

/-- The increment of the congruence that spreads a seed. -/
def seedIncrement : UInt64 := 11634580027462260723

/-- The output for a state: high bits folded onto low ones, turned by as many places as the top five
bits say. -/
def output (s : UInt64) : UInt32 :=
  let folded := (((s >>> 18) ^^^ s) >>> 27).toUInt32
  let turn := (s >>> 59).toUInt32
  (folded >>> turn) ||| (folded <<< (32 - turn))

/-- The next state of the generator. -/
def advance (g : Generator) : Generator :=
  { g with state := g.state * multiplier + g.increment }

/-- The state of the seed's own congruence after `n` steps. -/
def spread (seed : UInt64) : Nat → UInt64
  | 0 => seed
  | n + 1 => spread seed n * multiplier + seedIncrement

/-- Word `i` of the material that a seed is spread into. -/
def seedWord (seed : UInt64) (i : Nat) : UInt64 := (output (spread seed (i + 1))).toUInt64

/-- The generator for a seed: two words of its material are the starting state and two the
increment. -/
def ofSeed (seed : UInt64) : Generator :=
  let start := seedWord seed 0 ||| (seedWord seed 1 <<< 32)
  let increment := (seedWord seed 2 ||| (seedWord seed 3 <<< 32)) ||| 1
  advance ⟨start + increment, increment⟩

/-- A 32-bit word. -/
def word (g : Generator) : UInt32 × Generator := (output g.state, g.advance)

/-- A number from zero to below one, a multiple of `2 ^ -53`. -/
def unit (g : Generator) : Float × Generator :=
  let (low, g) := g.word
  let (high, g) := g.word
  let bits := (high.toUInt64 <<< 32) ||| low.toUInt64
  (Number.nearest .positive (bits >>> 11).toNat (-53), g)

/-- A number below `n`, for `n` at most `2 ^ 32`: the high word of a product with `n`, corrected by
a second draw when the low word is close to a carry. -/
def below (n : Nat) (g : Generator) : Nat × Generator :=
  let (w, g) := g.word
  let product := w.toNat * n
  let high := product / UInt32.size
  let low := product % UInt32.size
  if UInt32.size - n < low then
    let (w, g) := g.word
    let carry := (low + w.toNat * n / UInt32.size) / UInt32.size
    (high + carry, g)
  else (high, g)

end Generator

end ShapeGrammar
