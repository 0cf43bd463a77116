import Stave.Event.Json
import Stave.Json.Reader
import Stave.Score.Decode
import Stave.Sequencer

/-!
# Settings

What a user chooses once: the scale, what the notation leaves open, and the resolution of the
clock.  Read from JSON, where every section and every field may be left out.
-/

namespace Stave

/-- A scale before it is built: the root as a note name or a number, and perhaps steps that
override those of the mode. -/
structure ScaleChoice where
  root : String := "C4"
  mode : String := "major"
  intervals : Option (List Nat) := none
deriving DecidableEq

structure Settings where
  scale : ScaleChoice := {}
  defaults : Score.Defaults := {}
  ticksPerBeat : UInt32 := 24
deriving DecidableEq

namespace ScaleChoice

/-- The root's pitch; blanks around it do not matter. -/
def rootPitch (s : ScaleChoice) : Except ScaleError Pitch :=
  let cs := Text.trim s.root.toList
  match Numeral.integer? .int64 cs <|> Pitch.ofName? cs with
  | some p => .ok p
  | none => .error (.invalidRoot s.root)

def build (s : ScaleChoice) : Except ScaleError Scale := do
  let root ← s.rootPitch
  match s.intervals with
  | some steps => Scale.build root steps s.mode
  | none => Scale.named root s.mode

def ofJson? (j : Json) : Option ScaleChoice :=
  match j.record? ["root", "mode", "intervals"] true with
  | some [root, mode, intervals] => do
    let d : ScaleChoice := {}
    return {
      root := ← Json.defaulted? d.root Json.string? root
      mode := ← Json.defaulted? d.mode Json.string? mode
      intervals := ← Json.optional? (Json.list? (Json.natural? .nat32)) intervals }
  | _ => none

def toJson (s : ScaleChoice) : Json :=
  .object [
    ("root", .string s.root),
    ("mode", .string s.mode),
    ("intervals", Json.ofOption (fun steps => .array (steps.map .natural)) s.intervals)]

end ScaleChoice

namespace Score.Defaults

def ofJson? (j : Json) : Option Defaults :=
  match j.record? ["default_beat", "default_octave", "velocity", "accent_velocity"] true with
  | some [beat, octave, velocity, accentVelocity] => do
    let d : Defaults := {}
    return {
      beat := ← Json.defaulted? d.beat Ratio.ofJson? beat
      octave := ← Json.defaulted? d.octave (Json.integer? .int32) octave
      velocity := ← Json.defaulted? d.velocity Event.velocityOf? velocity
      accentVelocity := ← Json.defaulted? d.accentVelocity Event.velocityOf? accentVelocity }
  | _ => none

def toJson (d : Defaults) : Json :=
  .object [
    ("default_beat", d.beat.toJson),
    ("default_octave", .integer d.octave),
    ("velocity", .natural d.velocity.toNat),
    ("accent_velocity", .natural d.accentVelocity.toNat)]

end Score.Defaults

namespace Settings

/-- The section on the clock. -/
def ticksPerBeatOf? (j : Json) : Option UInt32 :=
  match j.record? ["ticks_per_beat"] true with
  | some [ticks] =>
    Json.defaulted? ({} : Settings).ticksPerBeat
      (fun j => (j.natural? .nat32).map Nat.toUInt32) ticks
  | _ => none

def ofJson? (j : Json) : Option Settings :=
  match j.record? ["scale", "decode", "clock"] true with
  | some [scale, decode, clock] => do
    let d : Settings := {}
    return {
      scale := ← Json.defaulted? d.scale ScaleChoice.ofJson? scale
      defaults := ← Json.defaulted? d.defaults Score.Defaults.ofJson? decode
      ticksPerBeat := ← Json.defaulted? d.ticksPerBeat ticksPerBeatOf? clock }
  | _ => none

def read? (text : String) : Option Settings := (Json.read? text).bind ofJson?

def toJson (s : Settings) : Json :=
  .object [
    ("scale", s.scale.toJson),
    ("decode", s.defaults.toJson),
    ("clock", .object [("ticks_per_beat", .natural s.ticksPerBeat.toNat)])]

end Settings

end Stave
