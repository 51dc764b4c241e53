/-!
# Subsets of a given size

`choose k xs` lists the `k`-element sublists of `xs` in the lexicographic order of their positions.

`Subsets` walks through the same sequence one step at a time.  Its state is the list of positions
of the current subset, and `successor` moves to the next one: the rightmost position with room
moves one place on, and those after it follow closely.  A state can be kept and continued from any
number of times, and `restart` goes back to the beginning.
-/

namespace ShapeGrammar

/-- The sublists of `k` elements, in the lexicographic order of their positions. -/
def choose {α : Type} : Nat → List α → List (List α)
  | 0, _ => [[]]
  | _ + 1, [] => []
  | k + 1, x :: xs => (choose k xs).map (x :: ·) ++ choose (k + 1) xs

/-- A walk through the subsets of a fixed size. -/
structure Subsets (α : Type) where
  items : List α
  /-- The positions of the current subset, in increasing order. -/
  positions : List Nat
  /-- The current subset has been handed out. -/
  started : Bool
  /-- There are no more subsets. -/
  done : Bool

namespace Subsets

variable {α : Type}

/-- The walk through the subsets of `k` items, before its first step. -/
def ofSize (items : List α) (k : Nat) : Subsets α where
  items := items
  positions := List.range k
  started := false
  done := items.length < k

/-- The walk from its beginning. -/
def restart (s : Subsets α) : Subsets α := ofSize s.items s.positions.length

/-- The list of `k` positions from `i` on. -/
def run (i k : Nat) : List Nat := (List.range k).map (i + ·)

/-- The next list of positions below `n` in lexicographic order. -/
def successor (n : Nat) : List Nat → Option (List Nat)
  | [] => none
  | i :: is =>
    match successor n is with
    | some js => some (i :: js)
    | none => if i + is.length + 1 < n then some (run (i + 1) (is.length + 1)) else none

/-- The items at the current positions. -/
def current (s : Subsets α) : List α := s.positions.filterMap fun i => s.items[i]?

/-- The next subset, if there is one, and the walk after it. -/
def next (s : Subsets α) : Option (List α) × Subsets α :=
  if s.done then (none, s)
  else if !s.started then (some s.current, { s with started := true })
  else
    match successor s.items.length s.positions with
    | some positions =>
      let s := { s with positions := positions }
      (some s.current, s)
    | none => (none, { s with done := true })

/-- All subsets up to the end of the walk, `fuel` of them at most, and the walk after them. -/
def collect : Nat → Subsets α → List (List α) × Subsets α
  | 0, s => ([], s)
  | fuel + 1, s =>
    match s.next with
    | (none, s) => ([], s)
    | (some subset, s) =>
      let (subsets, s) := collect fuel s
      (subset :: subsets, s)

/-- All subsets from here on, and the walk at its end.  A list of `n` items has `2 ^ n` sublists, so
the end is reached by then. -/
def remaining (s : Subsets α) : List (List α) × Subsets α := collect ((1 <<< s.items.length) + 1) s

end Subsets

end ShapeGrammar
