import Stave.Pitch

/-!
# Note messages and the sink that receives them
-/

namespace Stave

/-- A note begins or ends at a tick. -/
inductive Message where
  | noteOn (tick : Nat) (pitch : Pitch) (velocity : UInt8)
  | noteOff (tick : Nat) (pitch : Pitch)
deriving DecidableEq

namespace Message

def tick : Message → Nat
  | noteOn tick _ _ => tick
  | noteOff tick _ => tick

def pitch : Message → Pitch
  | noteOn _ pitch _ => pitch
  | noteOff _ pitch => pitch

/-- The pitches that sound after one more message: an end silences the earliest of its pitch. -/
def hear (sounding : List Pitch) : Message → List Pitch
  | noteOn _ pitch _ => sounding ++ [pitch]
  | noteOff _ pitch => sounding.erase pitch

end Message

/-- The pitches that have begun and not ended, in the order in which they began. -/
def sounding (messages : List Message) : List Pitch := messages.foldl Message.hear []

/-- A receiver that keeps its messages.  Its calls are counted from 0, and those with a number in
`failing` fail and keep nothing. -/
structure Sink where
  messages : List Message := []
  calls : Nat := 0
  failing : List Nat := []

/-- The sink after one call, with a message if the call failed. -/
def Sink.receive (s : Sink) (m : Message) : Option String × Sink :=
  if s.failing.contains s.calls then
    (some ("sink call " ++ toString s.calls ++ " failed"), { s with calls := s.calls + 1 })
  else (none, { s with messages := s.messages ++ [m], calls := s.calls + 1 })

end Stave
