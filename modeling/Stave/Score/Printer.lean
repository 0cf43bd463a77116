import Stave.Score.Tree

/-!
# A score as text

One canonical spelling: elements one blank apart, the shortest duration mark, then octave marks,
then articulations in order.
-/

namespace Stave.Score

/-- The shortest mark for a duration; a whole beat needs none. -/
def durationMark (q : Ratio) : String :=
  if q = 1 then ""
  else if q.num = 1 then "/" ++ toString q.den
  else "@" ++ toString q

def shiftMarks (shift : Int) : String :=
  String.ofList (List.replicate shift.natAbs (if 0 ≤ shift then '^' else '_'))

def articulationMarks (articulations : List Articulation) : String :=
  String.ofList (articulations.filterMap Articulation.symbol?)

def Note.text (n : Note) : String :=
  toString n.tone ++ durationMark n.duration ++ shiftMarks n.octaveShift ++
    articulationMarks n.articulations

mutual

def Node.text : Node → String
  | .sequence s => s.text
  | .group elements factor _ =>
    "(" ++ String.intercalate " " (elementTexts elements) ++ ")" ++ durationMark factor
  | .parallel voices factor _ =>
    "[" ++ String.intercalate ", " (voiceTexts voices) ++ "]" ++ durationMark factor
  | .note n => n.text
  | .rest r => "~" ++ durationMark r.duration

def Sequence.text : Sequence → String
  | ⟨elements, _⟩ => String.intercalate " " (elementTexts elements)

def elementTexts : List Node → List String
  | [] => []
  | n :: ns => n.text :: elementTexts ns

def voiceTexts : List Sequence → List String
  | [] => []
  | s :: ss => s.text :: voiceTexts ss

end

end Stave.Score
