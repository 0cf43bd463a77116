import Stave.Score.Tree

/-!
# The tree of a score as an indented outline

Every record, list and alternative with content opens a bracket, puts each of its parts on a line
of its own, four blanks deeper and with a comma after it, and closes the bracket below.
-/

namespace Stave

/-- Parts inside brackets, each perhaps under a label. -/
inductive Outline where
  | leaf (text : String)
  | bracket (opening : String) (parts : List (String × Outline)) (closing : String)

namespace Outline

/-- A record: its name and its labelled fields. -/
def record (name : String) (fields : List (String × Outline)) : Outline :=
  .bracket (name ++ " \x7b") (fields.map fun (label, o) => (label ++ ": ", o)) "\x7d"

/-- An alternative with content. -/
def wrapped (name : String) (content : Outline) : Outline := .bracket (name ++ "(") [("", content)] ")"

def list (items : List Outline) : Outline := .bracket "[" (items.map fun o => ("", o)) "]"

mutual

def renderAt (depth : Nat) : Outline → String
  | .leaf text => text
  | .bracket opening [] closing => opening ++ closing
  | .bracket opening parts closing =>
    opening ++ "\n" ++ renderParts (depth + 1) parts ++ "".pushn ' ' (4 * depth) ++ closing

def renderParts (depth : Nat) : List (String × Outline) → String
  | [] => ""
  | (label, o) :: ps =>
    "".pushn ' ' (4 * depth) ++ label ++ renderAt depth o ++ ",\n" ++ renderParts depth ps

end

def render (o : Outline) : String := renderAt 0 o

end Outline

namespace Score

def ratioOutline (q : Ratio) : Outline :=
  .record "Fraction" [("numerator", .leaf (toString q.num)), ("denominator", .leaf (toString q.den))]

def Span.outline (s : Span) : Outline :=
  .record "Span" [("start", .leaf (toString s.start)), ("end", .leaf (toString s.stop))]

def optionOutline (n : Option Int) : Outline :=
  match n with
  | some n => .wrapped "Some" (.leaf (toString n))
  | none => .leaf "None"

def Tone.outline : Tone → Outline
  | .degree n => .wrapped "Degree" (.leaf (toString n))
  | .named name => .wrapped "Name" (.record "NoteName" [
      ("letter", .leaf (String.ofList ['\x27', name.letter, '\x27'])),
      ("accidental", .leaf (toString name.accidental)),
      ("octave", optionOutline name.octave)])

def articulationOutline : Articulation → Outline
  | .normal => .leaf "Normal"
  | .accent => .leaf "Accent"
  | .staccato => .leaf "Staccato"
  | .tenuto => .leaf "Tenuto"

def Note.outline (n : Note) : Outline :=
  .record "Note" [
    ("pitch", n.tone.outline),
    ("duration", ratioOutline n.duration),
    ("octave_shift", .leaf (toString n.octaveShift)),
    ("articulations", .list (n.articulations.map articulationOutline)),
    ("span", n.span.outline)]

def Rest.outline (r : Rest) : Outline :=
  .record "Rest" [("duration", ratioOutline r.duration), ("span", r.span.outline)]

mutual

def Node.outline : Node → Outline
  | .sequence s => .wrapped "Sequence" s.outline
  | .group elements factor span =>
    .wrapped "Group" (.record "Group" [
      ("elements", .list (elementOutlines elements)),
      ("factor", ratioOutline factor),
      ("span", span.outline)])
  | .parallel voices factor span =>
    .wrapped "Parallel" (.record "Parallel" [
      ("voices", .list (voiceOutlines voices)),
      ("factor", ratioOutline factor),
      ("span", span.outline)])
  | .note n => .wrapped "Note" n.outline
  | .rest r => .wrapped "Rest" r.outline

def Sequence.outline : Sequence → Outline
  | ⟨elements, span⟩ =>
    .record "Sequence" [("elements", .list (elementOutlines elements)), ("span", span.outline)]

def elementOutlines : List Node → List Outline
  | [] => []
  | n :: ns => n.outline :: elementOutlines ns

def voiceOutlines : List Sequence → List Outline
  | [] => []
  | s :: ss => s.outline :: voiceOutlines ss

end

end Score

end Stave
