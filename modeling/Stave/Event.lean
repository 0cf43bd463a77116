import Stave.Pitch
import Stave.Ratio.Text

/-!
# Note events

What a score sounds like: pitches with a start and a duration in beats.
-/

namespace Stave

/-- How a note is played. -/
inductive Articulation where
  | normal
  | accent
  | staccato
  | tenuto
deriving DecidableEq

def Articulation.symbol? : Articulation → Option Char
  | .normal => none
  | .accent => some '!'
  | .staccato => some '\x27'
  | .tenuto => some '='

structure Event where
  pitch : Pitch
  start : Ratio
  duration : Ratio
  velocity : UInt8 := 96
  articulation : Articulation := .normal
deriving DecidableEq

namespace Event

/-- Where the note ends, if that is still a ratio. -/
def stop? (e : Event) : Option Ratio := e.start.add? e.duration

/-- The same, with the fault to report when it is not. -/
def stop (e : Event) : Except RatioFault Ratio := e.start.add e.duration

def symbolText (a : Articulation) : String :=
  match a.symbol? with
  | some c => " " ++ String.ofList [c]
  | none => ""

instance : ToString Event where
  toString e :=
    e.pitch.name ++ " @ " ++ toString e.start ++ " for " ++ toString e.duration ++ " (vel " ++
      toString e.velocity.toNat ++ symbolText e.articulation ++ ")"

end Event

end Stave
