import Stave.Event.Json
import Stave.Score.Tree

/-!
# The tree of a score as JSON

A node is a record under the name of its kind.  Reading takes a bound on the nesting, which
`Json.height` supplies.
-/

namespace Stave

namespace Score

/-! ## Writing -/

def Span.toJson (s : Span) : Json :=
  .object [("start", .natural s.start), ("end", .natural s.stop)]

def nameToJson (n : NoteName) : Json :=
  .object [
    ("letter", .string (String.ofList [n.letter])),
    ("accidental", .integer n.accidental),
    ("octave", Json.ofOption .integer n.octave)]

def Tone.toJson : Tone → Json
  | .degree n => .object [("Degree", .integer n)]
  | .named name => .object [("Name", nameToJson name)]

def Note.toJson (n : Note) : Json :=
  .object [
    ("pitch", n.tone.toJson),
    ("duration", n.duration.toJson),
    ("octave_shift", .integer n.octaveShift),
    ("articulations", .array (n.articulations.map Articulation.toJson)),
    ("span", n.span.toJson)]

def Rest.toJson (r : Rest) : Json :=
  .object [("duration", r.duration.toJson), ("span", r.span.toJson)]

mutual

def Node.toJson : Node → Json
  | .sequence s => .object [("Sequence", s.toJson)]
  | .group elements factor span =>
    .object [("Group", .object [
      ("elements", .array (elementsToJson elements)),
      ("factor", factor.toJson),
      ("span", span.toJson)])]
  | .parallel voices factor span =>
    .object [("Parallel", .object [
      ("voices", .array (voicesToJson voices)),
      ("factor", factor.toJson),
      ("span", span.toJson)])]
  | .note n => .object [("Note", n.toJson)]
  | .rest r => .object [("Rest", r.toJson)]

def Sequence.toJson : Sequence → Json
  | ⟨elements, span⟩ =>
    .object [("elements", .array (elementsToJson elements)), ("span", span.toJson)]

def elementsToJson : List Node → List Json
  | [] => []
  | n :: ns => n.toJson :: elementsToJson ns

def voicesToJson : List Sequence → List Json
  | [] => []
  | s :: ss => s.toJson :: voicesToJson ss

end

/-! ## Reading -/

def Span.ofJson? (j : Json) : Option Span :=
  match j.record? ["start", "end"] false with
  | some [some start, some stop] => do
    return ⟨← start.natural? .nat64, ← stop.natural? .nat64⟩
  | _ => none

def nameOfJson? (j : Json) : Option NoteName :=
  match j.record? ["letter", "accidental", "octave"] false with
  | some [some letter, some accidental, octave] => do
    return ⟨← letter.char?, ← accidental.integer? .int32,
      ← Json.optional? (Json.integer? .int32) octave⟩
  | _ => none

def Tone.ofJson? (j : Json) : Option Tone :=
  match j.variant? with
  | some ("Degree", some n) => (n.integer? .int64).map .degree
  | some ("Name", some name) => (nameOfJson? name).map .named
  | _ => none

def Note.ofJson? (j : Json) : Option Note :=
  match j.record? ["pitch", "duration", "octave_shift", "articulations", "span"] false with
  | some [some tone, some duration, some shift, some articulations, some span] => do
    return ⟨← Tone.ofJson? tone, ← Ratio.ofJson? duration, ← shift.integer? .int32,
      ← articulations.list? Articulation.ofJson?, ← Span.ofJson? span⟩
  | _ => none

def Rest.ofJson? (j : Json) : Option Rest :=
  match j.record? ["duration", "span"] false with
  | some [some duration, some span] => do
    return ⟨← Ratio.ofJson? duration, ← Span.ofJson? span⟩
  | _ => none

mutual

def nodeWithin? : Nat → Json → Option Node
  | 0, _ => none
  | depth + 1, j =>
    match j.variant? with
    | some ("Sequence", some s) => (sequenceWithin? depth s).map .sequence
    | some ("Group", some g) =>
      match g.record? ["elements", "factor", "span"] false with
      | some [some elements, some factor, some span] => do
        return .group (← elements.list? (nodeWithin? depth)) (← Ratio.ofJson? factor)
          (← Span.ofJson? span)
      | _ => none
    | some ("Parallel", some p) =>
      match p.record? ["voices", "factor", "span"] false with
      | some [some voices, some factor, some span] => do
        return .parallel (← voices.list? (sequenceWithin? depth)) (← Ratio.ofJson? factor)
          (← Span.ofJson? span)
      | _ => none
    | some ("Note", some n) => (Note.ofJson? n).map .note
    | some ("Rest", some r) => (Rest.ofJson? r).map .rest
    | _ => none

def sequenceWithin? : Nat → Json → Option Sequence
  | 0, _ => none
  | depth + 1, j =>
    match j.record? ["elements", "span"] false with
    | some [some elements, some span] => do
      return ⟨← elements.list? (nodeWithin? depth), ← Span.ofJson? span⟩
    | _ => none

end

def Node.ofJson? (j : Json) : Option Node := nodeWithin? j.height j

def Sequence.ofJson? (j : Json) : Option Sequence := sequenceWithin? j.height j

end Score

end Stave
