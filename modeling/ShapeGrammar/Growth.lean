import ShapeGrammar.Search
import ShapeGrammar.Selection

/-!
# Growing a scene

A `Growth` owns a store and a set of productions and grows the store in one of two ways: by hand,
where `applyAt` applies the proposal under a point, or by itself, where each `tick` after a `start`
searches, chooses by the current policy and applies the choice, until nothing can be applied any
more.

Between the ticks of a run nothing is previewed.  Otherwise the growth keeps the proposals of its
last preview search, and `previews` shows them unless previews are hidden.
-/

namespace ShapeGrammar

/-- How a tick chooses among proposals. -/
inductive Policy where
  /-- Search exhaustively and choose in proportion to the area added. -/
  | weighted
  /-- Stop the search at the first proposal and take it. -/
  | first
  /-- Try `count` random pairs and choose any of the proposals found. -/
  | stochastic (count : Nat)
deriving DecidableEq

namespace Policy

/-- Which pairs a tick tries. -/
def sampling : Policy → Sampling
  | .weighted => .exhaustive
  | .first => .exhaustive
  | .stochastic count => .sampled count

/-- How many proposals a tick keeps, where `limit` is the growth's own limit. -/
def limit (limit : Option Nat) : Policy → Option Nat
  | .weighted => none
  | .first => some 1
  | .stochastic _ => limit

/-- The position of the proposal that a tick takes. -/
def choose (proposals : List Proposal) (g : Generator) : Policy → Option Nat × Generator
  | .weighted => Selection.weighted (proposals.map Proposal.score) g
  | .first => (if proposals.isEmpty then none else some 0, g)
  | .stochastic _ => Selection.uniform proposals.length g

end Policy

/-- Whether the growth runs by itself. -/
inductive Phase where
  | idle
  | running
deriving DecidableEq

/-- What the application of a proposal did. -/
structure Report where
  /-- The number of the production. -/
  production : Nat
  /-- The numbers of the polygons it was applied to. -/
  found : List Nat
  /-- The numbers of the polygons that were added. -/
  added : List Nat
deriving DecidableEq

/-- The report in words. -/
def Report.text (r : Report) : String :=
  "Applied " ++ toString r.production ++ " to "
    ++ String.intercalate ", " (r.found.map fun id => "#" ++ toString id)

/-- What a tick did. -/
inductive Outcome where
  /-- Nothing, because the growth does not run. -/
  | idle
  /-- Nothing could be applied, and the run is over. -/
  | exhausted
  /-- A proposal was applied. -/
  | applied (report : Report)
deriving DecidableEq

/-- A scene that grows. -/
structure Growth where
  store : Store
  productions : List Production
  region : Region
  generator : Generator
  phase : Phase
  policy : Policy
  /-- How many proposals preview searches and sampled searches keep. -/
  limit : Option Nat
  /-- The proposals of the last preview search. -/
  proposals : List Proposal
  showPreviews : Bool
  /-- The number of proposals applied by ticks. -/
  ticks : Nat

namespace Growth

/-- An idle growth with an empty store. -/
def new (region : Region) (productions : List Production) (seed : UInt64) (limit : Option Nat) :
    Growth where
  store := .empty
  productions := productions
  region := region
  generator := .ofSeed seed
  phase := .idle
  policy := .weighted
  limit := limit
  proposals := []
  showPreviews := true
  ticks := 0

/-- The growth runs by itself. -/
def isRunning (s : Growth) : Bool := s.phase == .running

/-- The proposals to show; none while previews are hidden. -/
def previews (s : Growth) : List Proposal := if s.showPreviews then s.proposals else []

/-- Search the store as it is now. -/
def search (s : Growth) (sampling : Sampling) (limit : Option Nat) : List Proposal × Generator :=
  Search.run s.store s.productions s.region.admits sampling limit s.generator

/-- Insert a shape within the region. -/
def plant (s : Growth) (shape : Shape) : Option Nat × Growth :=
  let (id, store) := s.store.insert s.region.admits shape
  (id, { s with store := store })

/-- Search anew for proposals to preview. -/
def refresh (s : Growth) : Growth :=
  let (proposals, generator) := s.search .exhaustive s.limit
  { s with proposals := proposals, generator := generator }

/-- Show or hide previews; what is shown is searched for anew. -/
def setShowPreviews (s : Growth) (shown : Bool) : Growth :=
  let s := { s with showPreviews := shown }
  if shown then s.refresh else s

/-- Let the growth run by itself, without previews.  A growth that runs already is left alone, and
the answer is then `false`. -/
def start (s : Growth) (policy : Policy) : Bool × Growth :=
  if s.isRunning then (false, s)
  else
    (true,
      { s with policy := policy, phase := .running, showPreviews := false, proposals := [] })

/-- End the run, and drop the proposals to preview. -/
def stop (s : Growth) : Growth := { s with phase := .idle, proposals := [] }

/-- Insert the shapes of a proposal one by one; those that do not fit any more are passed over. -/
def apply (s : Growth) (proposal : Proposal) : Report × Growth :=
  let (ids, store) := s.store.insertAll s.region.admits proposal.additions
  (⟨proposal.production.id, proposal.foundIds, ids.filterMap id⟩, { s with store := store })

/-- The step of a growth that runs: search, choose, apply. -/
def runningTick (s : Growth) : Outcome × Growth :=
  let (proposals, generator) := s.search s.policy.sampling (s.policy.limit s.limit)
  let (choice, generator) := s.policy.choose proposals generator
  let s := { s with generator := generator }
  match choice.bind fun i => proposals[i]? with
  | none => (.exhausted, { s with phase := .idle, proposals := [] })
  | some proposal =>
    let (report, s) := s.apply proposal
    (.applied report, { s with ticks := s.ticks + 1 })

/-- One step of the growth, if it runs. -/
def tick (s : Growth) : Outcome × Growth := if s.isRunning then s.runningTick else (.idle, s)

/-- Apply the first proposal that would add something at the point, out of a new search.  Nothing
happens while the growth runs. -/
def applyAt (s : Growth) (p : Point) : Option Report × Growth :=
  if s.isRunning then (none, s)
  else
    let s := s.refresh
    match (Selection.under s.proposals p).bind fun i => s.proposals[i]? with
    | none => (none, s)
    | some proposal =>
      let (report, s) := s.apply proposal
      (some report, s.refresh)

/-- Take other productions; this ends the run. -/
def setProductions (s : Growth) (productions : List Production) : Growth :=
  { s.stop with productions := productions }.refresh

/-- End the run and empty the store; numbers go on. -/
def reset (s : Growth) : Growth :=
  let s := s.stop
  { s with store := s.store.clear }

/-- Ticks one after the other, `n` at most, up to the first that applies nothing. -/
def run (s : Growth) : Nat → List Outcome × Growth
  | 0 => ([], s)
  | n + 1 =>
    match s.tick with
    | (.applied report, s) =>
      let (outcomes, s) := run s n
      (.applied report :: outcomes, s)
    | (outcome, s) => ([outcome], s)

end Growth

end ShapeGrammar
