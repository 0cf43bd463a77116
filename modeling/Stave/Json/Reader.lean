import Stave.Json.Lexer

/-!
# Reading JSON

A machine with a stack of open brackets takes the tokens one by one.  Between tokens it knows
what may come next; a text is a value if the machine has ended with one when the tokens run out.
-/

namespace Stave.Json

/-- A name in an object; `none` if its text could not be decoded. -/
abbrev Name := Option String

/-- An open bracket with the items already read, latest first. -/
inductive Frame where
  | items (done : List Json)
  | fields (done : List (Name × Json)) (name : Name)

/-- What has been read and what may come next. -/
inductive Reading where
  | value (outer : List Frame)
  | firstItem (outer : List Frame)
  | firstName (outer : List Frame)
  | name (done : List (Name × Json)) (outer : List Frame)
  | colon (done : List (Name × Json)) (name : Name) (outer : List Frame)
  | afterItem (done : List Json) (outer : List Frame)
  | afterField (done : List (Name × Json)) (outer : List Frame)
  | finished (value : Json)

/-- Puts a complete value where the innermost bracket wants it. -/
def deliver (v : Json) : List Frame → Reading
  | [] => .finished v
  | .items done :: outer => .afterItem (v :: done) outer
  | .fields done name :: outer => .afterField ((name, v) :: done) outer

/-- The object of some fields, latest first; it can only be skipped if a name is unreadable. -/
def objectOf (done : List (Name × Json)) : Json :=
  match done.reverse.mapM fun (name, v) => name.map fun n => (n, v) with
  | some fields => .object fields
  | none => .unreadable

def nameOf? : Json → Option Name
  | .string s => some (some s)
  | .unreadable => some none
  | _ => none

/-- A value's first token. -/
def beginValue (outer : List Frame) : Token → Option Reading
  | .openArray => some (.firstItem outer)
  | .openObject => some (.firstName outer)
  | .scalar v => some (deliver v outer)
  | _ => none

def Reading.step : Reading → Token → Option Reading
  | .value outer, t => beginValue outer t
  | .firstItem outer, .closeArray => some (deliver (.array []) outer)
  | .firstItem outer, t => beginValue (.items [] :: outer) t
  | .firstName outer, .closeObject => some (deliver (.object []) outer)
  | .firstName outer, .scalar v => (nameOf? v).map fun n => .colon [] n outer
  | .name done outer, .scalar v => (nameOf? v).map fun n => .colon done n outer
  | .colon done n outer, .colon => some (.value (.fields done n :: outer))
  | .afterItem done outer, .comma => some (.value (.items done :: outer))
  | .afterItem done outer, .closeArray => some (deliver (.array done.reverse) outer)
  | .afterField done outer, .comma => some (.name done outer)
  | .afterField done outer, .closeObject => some (deliver (objectOf done) outer)
  | _, _ => none

def Reading.result? : Reading → Option Json
  | .finished v => some v
  | _ => none

/-- The value that a whole text spells, however deep its brackets nest.  The records that are read from
a text, settings and events, go a few brackets deep; what stands deeper is only skipped, and skipping
has no limit. -/
def read? (text : String) : Option Json := do
  let tokens ← tokens? text.toList
  let reading ← tokens.foldlM Reading.step (.value [])
  reading.result?

end Stave.Json
