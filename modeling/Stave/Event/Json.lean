import Stave.Event
import Stave.Json
import Stave.Scale

/-!
# Events, ratios and scales as JSON

A ratio is a string, an event a record of its five fields.
-/

namespace Stave

def Ratio.toJson (q : Ratio) : Json := .string (toString q)

def Ratio.ofJson? (j : Json) : Option Ratio := j.string?.bind fun s => (Ratio.read s).toOption

namespace Articulation

def name : Articulation → String
  | .normal => "Normal"
  | .accent => "Accent"
  | .staccato => "Staccato"
  | .tenuto => "Tenuto"

def toJson (a : Articulation) : Json := .string a.name

def ofName? (s : String) : Option Articulation :=
  [normal, accent, staccato, tenuto].find? fun a => a.name == s

/-- The name, alone or with an empty payload. -/
def ofJson? (j : Json) : Option Articulation :=
  match j.variant? with
  | some (s, none) | some (s, some .null) => ofName? s
  | _ => none

end Articulation

namespace Event

def toJson (e : Event) : Json :=
  .object [
    ("pitch", .integer e.pitch),
    ("start", e.start.toJson),
    ("duration", e.duration.toJson),
    ("velocity", .natural e.velocity.toNat),
    ("articulation", e.articulation.toJson)]

def velocityOf? (j : Json) : Option UInt8 := (j.natural? .nat8).map Nat.toUInt8

def ofJson? (j : Json) : Option Event :=
  match j.record? ["pitch", "start", "duration", "velocity", "articulation"] false with
  | some [some pitch, some start, some duration, some velocity, some articulation] => do
    return {
      pitch := ← pitch.integer? .int64
      start := ← Ratio.ofJson? start
      duration := ← Ratio.ofJson? duration
      velocity := ← velocityOf? velocity
      articulation := ← Articulation.ofJson? articulation }
  | _ => none

end Event

def Scale.toJson (s : Scale) : Json :=
  .object [
    ("root", .integer s.root),
    ("intervals", .array (s.steps.map .natural)),
    ("mode", .string s.mode)]

end Stave
