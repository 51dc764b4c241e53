import ShapeGrammar.Proofs.Growth.Termination
import ShapeGrammar.Scene
import ShapeGrammar.Settings
import ShapeGrammar.Shape.Text
import ShapeGrammar.Worker

/-!
# The program

`main` reads the settings from the file named on the command line, or from `settings.json`, installs
the scene they ask for, lets it grow, and prints the polygons of the grown scene, one to a line.  How
long it waits for the growth has no bound in the settings; that the waiting ends is because no growth
runs for ever.
-/

namespace ShapeGrammar

/-- A failure in words. -/
def Failure.describe (f : Failure) : String := f.message.getD "the text cannot be read"

/-- The growth that settings ask for, before its first tick. -/
def Settings.prepare (s : Settings) : Except Failure Growth := do
  let _ ← s.canvasSize
  let scene ← Scene.load s.scene s.canvasWidth s.canvasHeight
  let growth := Growth.new s.region [] (UInt64.ofNat s.seed) s.limit
  return (scene.install growth).2

/-- A polygon on a line of its own. -/
def Polygon.line (p : Polygon) : String := "#" ++ toString p.id ++ " " ++ p.shape.toText

/-- Wake the worker until the growth is over or has made as many ticks as it may.  A worker that was
shut down is not waited for. -/
def grow (maxSteps : Option Nat) (s : Shared) : Shared :=
  if s.alive && s.isRunning then
    if maxSteps.any (· ≤ s.wake.growth.ticks) then s.wake.stop else grow maxSteps s.wake
  else s
termination_by s.patience
decreasing_by exact s.patience_wake_lt ‹_›

/-- The growth after the run that settings ask for. -/
def Settings.grown (s : Settings) (growth : Growth) : Growth :=
  (grow s.maxSteps ((Shared.spawn growth).start s.policy).2).stop.growth

end ShapeGrammar

open ShapeGrammar in
/-- Grow the scene of a settings file. -/
def main (args : List String) : IO UInt32 := do
  let path := args.headD "settings.json"
  let file ← try some <$> IO.FS.readBinFile path catch _ => pure none
  let settings := Settings.load file
  match settings.prepare with
  | .error failure =>
    IO.eprintln failure.describe
    return 1
  | .ok growth =>
    let grown := settings.grown growth
    for polygon in grown.store.toList do
      IO.println polygon.line
    IO.println (toString grown.store.size ++ " polygons after " ++ toString grown.ticks ++ " ticks")
    return 0
