import Stave.Event
import Stave.Score.Span

/-!
# The tree of a score

Every duration and factor in the tree is a multiple of the beat that the node inherits from the
bracket around it, never an absolute time.  The length of a node is what it takes, in beats, when
that beat is one; lengths are exact, so a sum may be too fine or too large to hold.
-/

namespace Stave.Score

/-- What a note names: a degree of the scale, or a letter. -/
inductive Tone where
  | degree (degree : Int)
  | named (name : NoteName)
deriving DecidableEq

instance : ToString Tone where
  toString
    | .degree n => toString n
    | .named name => toString name

structure Note where
  tone : Tone
  duration : Ratio
  octaveShift : Int
  articulations : List Articulation
  span : Span
deriving DecidableEq

structure Rest where
  duration : Ratio
  span : Span
deriving DecidableEq

mutual

/-- A group shares `factor` beats among its elements by their lengths; a parallel block starts all
its voices together, on a beat scaled by `factor`. -/
inductive Node where
  | sequence (sequence : Sequence)
  | group (elements : List Node) (factor : Ratio) (span : Span)
  | parallel (voices : List Sequence) (factor : Ratio) (span : Span)
  | note (note : Note)
  | rest (rest : Rest)

/-- Elements one after another. -/
structure Sequence where
  elements : List Node
  span : Span

end

def Note.isAccented (n : Note) : Bool := n.articulations.contains .accent

def Node.span : Node → Span
  | .sequence s => s.span
  | .group _ _ span => span
  | .parallel _ _ span => span
  | .note n => n.span
  | .rest r => r.span

/-! ## Lengths -/

/-- The greatest of some lengths, but at least zero. -/
def longest (lengths : List Ratio) : Ratio := lengths.foldl max 0

mutual

def Node.length? : Node → Option Ratio
  | .sequence s => s.length?
  | .group _ factor _ => some factor
  | .parallel voices factor _ => do factor.mul? (longest (← voiceLengths? voices))
  | .note n => some n.duration
  | .rest r => some r.duration

def Sequence.length? : Sequence → Option Ratio
  | ⟨elements, _⟩ => do Ratio.sum? (← lengths? elements)

def lengths? : List Node → Option (List Ratio)
  | [] => some []
  | n :: ns => do return (← n.length?) :: (← lengths? ns)

def voiceLengths? : List Sequence → Option (List Ratio)
  | [] => some []
  | s :: ss => do return (← s.length?) :: (← voiceLengths? ss)

end

/-- The sum of the elements' lengths, by which a group divides its time. -/
def weight? (elements : List Node) : Option Ratio := do Ratio.sum? (← lengths? elements)

end Stave.Score
