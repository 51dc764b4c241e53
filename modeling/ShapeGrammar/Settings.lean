import ShapeGrammar.Growth
import ShapeGrammar.Json.Printer
import ShapeGrammar.Json.Reader

/-!
# Settings

The settings of a run are kept in a data file.  What a file does not say has its default, and a
file that cannot be read as a whole gives the defaults for everything: `Settings.load` never mixes
the two.  `Settings.toText` writes the file, one setting to a line.
-/

namespace ShapeGrammar

open Json

/-- The settings of a run. -/
structure Settings where
  canvasWidth : Float
  canvasHeight : Float
  /-- How far a vertex may lie outside the canvas. -/
  slack : Float
  /-- The key of the scene. -/
  scene : String
  policy : Policy
  /-- The time between ticks, in milliseconds. -/
  tickInterval : Nat
  /-- How many proposals preview searches and sampled searches keep. -/
  limit : Option Nat
  seed : Nat
  /-- The number of ticks after which a run ends in any case. -/
  maxSteps : Option Nat
  /-- The name of the image file. -/
  image : String
  /-- Whether the image shows what could be added. -/
  showPreviews : Bool
deriving BEq

namespace Settings

/-- The settings for everything that a file does not say. -/
def default : Settings where
  canvasWidth := 1024
  canvasHeight := 768
  slack := Region.defaultSlack
  scene := "tri"
  policy := .weighted
  tickInterval := 1
  limit := some defaultLimit
  seed := 0xdeadbeef
  maxSteps := some 5000
  image := "polygrow.png"
  showPreviews := false

/-- The region of the canvas. -/
def region (s : Settings) : Region :=
  { Region.canvas s.canvasWidth s.canvasHeight with slack := s.slack }

/-- A side of the canvas in whole pixels. -/
def pixels (side : CanvasSide) (value : Float) : Except Failure Nat :=
  match Number.ceiling? value with
  | some n =>
    if 1 ≤ value && n ≤ maxCanvasSide then .ok n.toNat else .error (.canvasSide side value)
  | none => .error (.canvasSide side value)

/-- The size of the canvas in whole pixels. -/
def canvasSize (s : Settings) : Except Failure (Nat × Nat) := do
  let width ← pixels .width s.canvasWidth
  let height ← pixels .height s.canvasHeight
  return (width, height)

/-! ### Reading -/

/-- The member `count` of a stochastic policy. -/
def readCount : Reader Nat :=
  readRecord none ["count"]
    (fun count name =>
      match name with
      | "count" => place count readNatural some
      | _ => .unknown)
    (fun _ count => required count)

/-- The rest of a policy that is written as an object, after its name. -/
def readPolicyBody : String → Reader Policy
  | "Weighted" => fun ts => do
    let ((), ts) ← readNull (← takeColon ts)
    return (.weighted, ts)
  | "First" => fun ts => do
    let ((), ts) ← readNull (← takeColon ts)
    return (.first, ts)
  | "Stochastic" => fun ts => do
    let (count, ts) ← readCount (← takeColon ts)
    return (.stochastic count, ts)
  | _ => fun _ => .error .mismatched

/-- A policy: its name, or an object with its name and what belongs to it. -/
def readPolicy : Reader Policy
  | [] => .error .ended
  | .text (some "Weighted") :: ts => .ok (.weighted, ts)
  | .text (some "First") :: ts => .ok (.first, ts)
  | .text (some _) :: _ => .error .mismatched
  | .brokenText wanted _ :: _ => .error wanted
  | .openObject :: ts => do
    let (name, ts) ← readString ts
    let (policy, ts) ← readPolicyBody name ts
    return (policy, ← takeCloseObject ts)
  | _ :: _ => .error .malformed

/-- Settings as far as they have been read, with the names of the settings that were there. -/
structure Draft where
  settings : Settings
  seen : List String

/-- A setting that is read into a draft, unless it was there before. -/
def Draft.field {α : Type} (d : Draft) (name : String) (item : Reader α) (set : α → Settings) :
    Member Draft :=
  if d.seen.contains name then .repeated
  else .known fun ts => do
    let (a, ts) ← item ts
    return (⟨set a, name :: d.seen⟩, ts)

/-- The names of the settings in their order. -/
def names : List String :=
  ["canvas_width", "canvas_height", "bounds_tolerance", "preset", "policy", "tick_interval_ms",
    "candidate_limit", "rng_seed", "max_steps", "output_png", "draw_previews"]

/-- What a member of the file means. -/
def member (d : Draft) (name : String) : Member Draft :=
  let s := d.settings
  match name with
  | "canvas_width" => d.field name readFloat fun v => { s with canvasWidth := v }
  | "canvas_height" => d.field name readFloat fun v => { s with canvasHeight := v }
  | "bounds_tolerance" => d.field name readFloat fun v => { s with slack := v }
  | "preset" => d.field name readString fun v => { s with scene := v }
  | "policy" => d.field name readPolicy fun v => { s with policy := v }
  | "tick_interval_ms" => d.field name readNatural fun v => { s with tickInterval := v }
  | "candidate_limit" => d.field name (readOption readNatural) fun v => { s with limit := v }
  | "rng_seed" => d.field name readNatural fun v => { s with seed := v }
  | "max_steps" => d.field name (readOption readNatural) fun v => { s with maxSteps := v }
  | "output_png" => d.field name readString fun v => { s with image := v }
  | "draw_previews" => d.field name readBool fun v => { s with showPreviews := v }
  | _ => .unknown

/-- Settings in either form of a record. -/
def read : Reader Settings :=
  readRecord ⟨default, []⟩ names member fun _ d => .ok d.settings

/-- The settings that a text says. -/
def ofText (text : String) : Except TextFault Settings := do
  let (settings, rest) ← read (tokens text.toList)
  atEnd rest
  return settings

/-- The settings of a file, given its bytes if there is one. -/
def load (file : Option ByteArray) : Settings :=
  match file.bind String.fromUTF8? with
  | none => default
  | some text =>
    match ofText text with
    | .ok settings => settings
    | .error _ => default

/-! ### Writing -/

/-- A policy by name, or as an object if there is more to say. -/
def policyJson : Policy → Value
  | .weighted => .text "Weighted"
  | .first => .text "First"
  | .stochastic count => .object [("Stochastic", .object [("count", .natural count)])]

/-- The settings as an object, in their order. -/
def toJson (s : Settings) : Value :=
  .object [
    ("canvas_width", .double s.canvasWidth),
    ("canvas_height", .double s.canvasHeight),
    ("bounds_tolerance", .double s.slack),
    ("preset", .text s.scene),
    ("policy", policyJson s.policy),
    ("tick_interval_ms", .natural s.tickInterval),
    ("candidate_limit", .optional (s.limit.map .natural)),
    ("rng_seed", .natural s.seed),
    ("max_steps", .optional (s.maxSteps.map .natural)),
    ("output_png", .text s.image),
    ("draw_previews", .boolean s.showPreviews)]

/-- The text of a settings file. -/
def toText (s : Settings) : String := s.toJson.pretty

end Settings

end ShapeGrammar
