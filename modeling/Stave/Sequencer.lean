import Stave.Clock.Tick
import Stave.Event
import Stave.Sink

/-!
# Events on a clock

A resolution turns beats into ticks, rounding down.  Binding events to a clock queues two cues for
each, its beginning and its end, event by event: of a note that ends on the tick on which another
begins, the end comes first if the events are in order of start.  Either all cues are queued or,
if an event cannot be placed, none.
-/

namespace Stave

/-- Ticks in one beat. -/
structure Resolution where
  ticksPerBeat : UInt32
  ne_zero : ticksPerBeat ≠ 0

/-- The beginning or the end of an event. -/
inductive Cue where
  | on (event : Event)
  | off (event : Event)

def Cue.message (now : Nat) : Cue → Message
  | .on e => .noteOn now e.pitch e.velocity
  | .off e => .noteOff now e.pitch

namespace Resolution

def build (ticksPerBeat : UInt32) : Except TimingError Resolution :=
  if h : ticksPerBeat = 0 then .error .zeroResolution else .ok ⟨ticksPerBeat, h⟩

theorem ticksPerBeat_holds (n : UInt32) : Width.int64.Holds (n.toNat : Int) := by
  have := n.toNat_lt
  simp only [Width.Holds, Width.int64]
  omega

def ratio (r : Resolution) : Ratio :=
  .ofInt r.ticksPerBeat.toNat (ticksPerBeat_holds r.ticksPerBeat)

/-- The tick of an offset in beats. -/
def toTicks (r : Resolution) (beats : Ratio) : Except TimingError Int :=
  match beats.mul? r.ratio with
  | some ticks => .ok ticks.floor
  | none => .error (.tickOverflow beats)

/-- The ticks on which an event begins and ends; it never ends before it begins. -/
def ticksOf (r : Resolution) (e : Event) : Except TimingError (Nat × Nat) :=
  if e.start.isNegative then .error (.negativeStart e.start)
  else match e.stop? with
    | none => .error (.tickOverflow e.start)
    | some stop => do
      let on ← r.toTicks e.start
      let off ← r.toTicks stop
      return (on.toNat, (max off on).toNat)

/-- The cues of some events with their ticks, as callbacks. -/
def cues {κ : Type} (r : Resolution) (callback : Cue → κ) (events : List Event) :
    Except TimingError (List (Nat × κ)) := do
  let ticks ← events.mapM r.ticksOf
  return (events.zip ticks).flatMap fun (e, on, off) =>
    [(on, callback (.on e)), (off, callback (.off e))]

/-- Queues the cues of some events; answers with the number queued. -/
def bind {κ : Type} (r : Resolution) (callback : Cue → κ) (events : List Event) (caller : Caller)
    (c : Clock κ) : Except TimingError (Clock κ × Nat) := do
  c.answer caller (.scheduleAll (← r.cues callback events))

end Resolution

/-! ## Playing to a sink -/

/-- A cue sends its message, stamped with the tick on which it is dispatched. -/
def Cue.script (c : Cue) : Script Cue Sink :=
  .look fun view => .act (·.receive (c.message view.now)) .done

/-- A running clock with the cues of some events, an empty sink, and the number of cues. -/
def onStage (r : Resolution) (events : List Event) :
    Except TimingError (Stage Cue Sink × Nat) := do
  let (clock, bound) ← r.bind id events .owner {}
  let (clock, _) ← clock.answer .owner (.run none)
  return (⟨clock, {}⟩, bound)

/-- Ticks enough to reach the end of the queue. -/
def Clock.ticksLeft {κ : Type} (c : Clock κ) : Nat :=
  match c.queue.getLast? with
  | some e => e.due + 1 - c.now
  | none => 0

end Stave
