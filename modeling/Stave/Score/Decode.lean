import Stave.Scale
import Stave.Score.Fault
import Stave.Score.Tree

/-!
# From a score to its events

Each node gets a start and a beat from the bracket around it, and answers with its events in
source order and the time it takes.  Only the events of a whole score are sorted by start; the
sort is stable, so voices keep their order where they coincide.  All arithmetic is exact, and the
first number that cannot be held is reported at the node that needed it.
-/

namespace Stave.Score

/-- What the notation leaves open. -/
structure Defaults where
  beat : Ratio := 1
  octave : Int := 4
  velocity : UInt8 := 96
  accentVelocity : UInt8 := 120
deriving DecidableEq

/-- What every node of a score is decoded against. -/
structure Setting where
  scale : Scale
  defaults : Defaults := {}

/-- A time, or the fault of the node that needed it. -/
def inTime (span : Span) : Option Ratio → Except DecodeFault Ratio
  | some t => .ok t
  | none => .error (.time span)

/-! ## Notes -/

/-- A degree is taken in the octave of the root; a named pitch is placed on the scale and read
back from it. -/
def pitchOf? (c : Setting) (n : Note) : Option Pitch :=
  match n.tone with
  | .degree degree => do
    let octave ← Width.int32.narrow? (c.scale.rootOctave + n.octaveShift)
    c.scale.resolve? degree octave
  | .named name => do
    let target ← Width.int64.narrow? (name.pitch c.defaults.octave + 12 * n.octaveShift)
    let (degree, rest) := c.scale.locate target
    let below ← c.scale.resolve? degree c.scale.rootOctave
    Width.int64.narrow? (below + rest)

/-- The last mark other than an accent decides; an accent alone counts too. -/
def Note.articulation (n : Note) : Articulation :=
  match n.articulations.reverse.find? (· ≠ .accent) with
  | some a => a
  | none => if n.isAccented then .accent else .normal

def eventOf (c : Setting) (n : Note) (start duration : Ratio) : Except DecodeFault Event :=
  match pitchOf? c n with
  | some pitch => .ok {
      pitch, start, duration
      velocity := if n.isAccented then c.defaults.accentVelocity else c.defaults.velocity
      articulation := n.articulation }
  | none => .error (.pitch (toString n.tone) n.span)

/-! ## Nodes -/

/-- Events in source order and the time they take, or the time at which they end. -/
structure Passage where
  events : List Event
  time : Ratio

/-- How a group divides its time: by length, or evenly if no element has any. -/
structure Division where
  beat : Ratio
  even : Bool

/-- The division of a group's time among some elements of a total weight. -/
def divide? (total weight : Ratio) (count : Nat) : Option Division :=
  if weight.isZero then do return ⟨← total.div? (← Ratio.ofInt? count), true⟩
  else do return ⟨← total.div? weight, false⟩

/-- The time that a group gives to one of its elements. -/
def Division.slot (d : Division) (n : Node) : Except DecodeFault Ratio :=
  if d.even then .ok d.beat
  else do inTime n.span ((← inTime n.span n.length?).mul? d.beat)

mutual

def playNode (c : Setting) (start beat : Ratio) : Node → Except DecodeFault Passage
  | .sequence s => playSequence c start beat s
  | .group elements factor span => do
    let total ← inTime span (factor.mul? beat)
    let weight ← inTime span (weight? elements)
    match elements with
    | [] => return ⟨[], total⟩
    | _ :: _ =>
      match divide? total weight elements.length with
      | some division => return ⟨← playSlots c division start elements, total⟩
      | none => .error (.time span)
  | .parallel voices factor span => do
    let voiceBeat ← inTime span (factor.mul? beat)
    playVoices c start voiceBeat 0 voices
  | .note n => do
    let duration ← inTime n.span (n.duration.mul? beat)
    let _ ← inTime n.span (start.add? duration)
    return ⟨[← eventOf c n start duration], duration⟩
  | .rest r => do return ⟨[], ← inTime r.span (r.duration.mul? beat)⟩

def playSequence (c : Setting) (start beat : Ratio) : Sequence → Except DecodeFault Passage
  | ⟨elements, span⟩ => do
    let p ← playElements c start beat elements
    return ⟨p.events, ← inTime span (p.time.sub? start)⟩

/-- Elements one after another; the time answered is where the last one ends. -/
def playElements (c : Setting) (cursor beat : Ratio) : List Node → Except DecodeFault Passage
  | [] => return ⟨[], cursor⟩
  | n :: ns => do
    let p ← playNode c cursor beat n
    let next ← inTime n.span (cursor.add? p.time)
    let rest ← playElements c next beat ns
    return ⟨p.events ++ rest.events, rest.time⟩

/-- The elements of a group, each at the start of its slot. -/
def playSlots (c : Setting) (d : Division) (cursor : Ratio) :
    List Node → Except DecodeFault (List Event)
  | [] => return []
  | n :: ns => do
    let slot ← d.slot n
    let p ← playNode c cursor d.beat n
    let next ← inTime n.span (cursor.add? slot)
    return p.events ++ (← playSlots c d next ns)

/-- Voices from one start; the time answered is the longest, if above the given one. -/
def playVoices (c : Setting) (start beat longest : Ratio) :
    List Sequence → Except DecodeFault Passage
  | [] => return ⟨[], longest⟩
  | s :: ss => do
    let p ← playSequence c start beat s
    let rest ← playVoices c start beat (max longest p.time) ss
    return ⟨p.events ++ rest.events, rest.time⟩

end

/-! ## Scores -/

/-- Stably by start. -/
def sortByStart (events : List Event) : List Event := events.mergeSort fun a b => a.start ≤ b.start

/-- The events of a score in the order in which they start. -/
def decode (c : Setting) (start : Ratio) (s : Sequence) : Except DecodeFault (List Event) := do
  return sortByStart (← playSequence c start c.defaults.beat s).events

/-- The same for a single node, with the time it takes. -/
def decodeNode (c : Setting) (start : Ratio) (n : Node) : Except DecodeFault Passage := do
  let p ← playNode c start c.defaults.beat n
  return ⟨sortByStart p.events, p.time⟩

end Stave.Score
