import Stave.Event.Json
import Stave.Sink

/-!
# Messages as JSON

A message is a record with a tag under `type`; as an array it has the tag in front.
-/

namespace Stave.Message

def toJson : Message → Json
  | .noteOn tick pitch velocity =>
    .object [("type", .string "note_on"), ("tick", .natural tick), ("pitch", .integer pitch),
      ("velocity", .natural velocity.toNat)]
  | .noteOff tick pitch =>
    .object [("type", .string "note_off"), ("tick", .natural tick), ("pitch", .integer pitch)]

/-- The tag, and the record of the fields beside it. -/
def tagged? : Json → Option (String × Json)
  | .object fields => do
    let tag ← (← Json.field? "type" fields).bind Json.string?
    return (tag, .object fields)
  | .array (tag :: fields) => do return (← tag.string?, .array fields)
  | _ => none

def ofJson? (j : Json) : Option Message := do
  match ← tagged? j with
  | ("note_on", fields) =>
    match fields.record? ["tick", "pitch", "velocity"] false with
    | some [some tick, some pitch, some velocity] =>
      return .noteOn (← tick.natural? .nat64) (← pitch.integer? .int64)
        (← Event.velocityOf? velocity)
    | _ => none
  | ("note_off", fields) =>
    match fields.record? ["tick", "pitch"] false with
    | some [some tick, some pitch] =>
      return .noteOff (← tick.natural? .nat64) (← pitch.integer? .int64)
    | _ => none
  | _ => none

end Stave.Message
