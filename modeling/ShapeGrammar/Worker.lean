import ShapeGrammar.Growth

/-!
# A growth with a worker

A worker wakes up at regular intervals and ticks a growth that it shares with its owner.  All access
goes through one lock, so what either side does is a step of its own, and a run of the two is a
sequence of steps in the order in which they took the lock.  This file gives these steps: `wake` is
the worker's, all others are the owner's.

Every tick that the worker performs and every `stop` leaves an `Update` in a queue for the owner,
with the state right after that step.
-/

namespace ShapeGrammar

/-- The news of one step. -/
structure Update where
  outcome : Outcome
  polygons : Nat
  ticks : Nat
  phase : Phase
deriving DecidableEq

/-- The news that a growth is in this state after a step with this outcome. -/
def Update.ofGrowth (s : Growth) (outcome : Outcome) : Update where
  outcome := outcome
  polygons := s.store.size
  ticks := s.ticks
  phase := s.phase

/-- A growth shared between its owner and a worker, and the updates not yet received. -/
structure Shared where
  growth : Growth
  updates : List Update
  /-- The worker has not been shut down. -/
  alive : Bool

namespace Shared

/-- Start a worker for a growth. -/
def spawn (growth : Growth) : Shared := ⟨growth, [], true⟩

/-- The worker wakes up: it ticks the growth if that runs, and reports. -/
def wake (s : Shared) : Shared :=
  if s.alive && s.growth.isRunning then
    let (outcome, growth) := s.growth.tick
    { s with growth := growth, updates := s.updates ++ [.ofGrowth growth outcome] }
  else s

/-- Do something with the growth. -/
def withGrowth {α : Type} (s : Shared) (f : Growth → α × Growth) : α × Shared :=
  let (a, growth) := f s.growth
  (a, { s with growth := growth })

/-- Let the growth run. -/
def start (s : Shared) (policy : Policy) : Bool × Shared := s.withGrowth fun g => g.start policy

/-- End the run, and report that. -/
def stop (s : Shared) : Shared :=
  let growth := s.growth.stop
  { s with growth := growth, updates := s.updates ++ [.ofGrowth growth .idle] }

/-- The growth runs. -/
def isRunning (s : Shared) : Bool := s.growth.isRunning

/-- Receive all updates there are. -/
def drain (s : Shared) : List Update × Shared := (s.updates, { s with updates := [] })

/-- Receive the updates up to the first that says the growth is exhausted, if there is one. -/
def receiveExhausted (s : Shared) : Option (List Update × Shared) :=
  match s.updates.findIdx? fun u => u.outcome == .exhausted with
  | none => none
  | some i => some (s.updates.take (i + 1), { s with updates := s.updates.drop (i + 1) })

/-- Shut the worker down. -/
def shutdown (s : Shared) : Shared := { s with alive := false }

end Shared

end ShapeGrammar
