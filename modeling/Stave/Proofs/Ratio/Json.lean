import Stave.Event.Json
import Stave.Proofs.Json.Records
import Stave.Proofs.Ratio.Text

/-!
# Ratios survive text, but for one

A ratio is a JSON string of its text, and is read back as it was wherever its text is.  The least
whole number is the one that is not, although it is a ratio like any other, is printed as one, and
can be read when it is spelt as a quotient.

    q.Legible ↔ q ≠ least                                              (legible_iff)
    q.Legible → ofJson? q.toJson = some q                              (ofJson?_toJson)
    every ratio is read from its two parts; from its own text, and
      from JSON, every one but the least whole number                  (survives_text)
-/

namespace Stave.Ratio

/-- The least whole number that 64 bits hold. -/
def least : Ratio := ofInt Width.int64.least (by decide)

theorem legible_iff {q : Ratio} : q.Legible ↔ q ≠ least := by
  constructor
  · rintro h rfl
    exact h rfl rfl
  · intro h hden hnum
    exact h (Ratio.ext hnum hden)

theorem ofJson?_toJson {q : Ratio} (h : q.Legible) : ofJson? q.toJson = some q := by
  show (read (toString q)).toOption = some q
  rw [read_toString_iff.2 h]
  rfl

theorem plain_toJson (q : Ratio) : q.toJson.Plain := .string _

theorem read_least : read (toString least) = .error ⟨toString least⟩ := by decide +kernel

/-- Every ratio is read back from its parts with a slash between.  Written as it is printed, or as
JSON, in a value or in either printed form, every one is read back but the least whole number,
which is refused by the text that spells it. -/
theorem survives_text (q : Ratio) :
    read (toString q.num ++ "/" ++ toString q.den) = .ok q ∧
    read (toString q) = (if q = least then .error ⟨toString q⟩ else .ok q) ∧
    ofJson? q.toJson = (if q = least then none else some q) ∧
    (Json.read? (Json.compact q.toJson)).bind ofJson? = (if q = least then none else some q) ∧
    (Json.read? (Json.pretty q.toJson)).bind ofJson? = if q = least then none else some q := by
  have hread : read (toString q) = if q = least then .error ⟨toString q⟩ else .ok q := by
    split
    · next h => rw [h, read_least]
    · next h => exact read_toString_iff.2 (legible_iff.2 h)
  have hjson : ofJson? q.toJson = if q = least then none else some q := by
    show (read (toString q)).toOption = _
    rw [hread]
    split <;> rfl
  refine ⟨read_quotient q, hread, hjson, ?_, ?_⟩
  · rw [q.plain_toJson.read?_compact]
    exact hjson
  · rw [q.plain_toJson.read?_pretty]
    exact hjson

/-- The text of the least whole number is refused, and so is its JSON form. -/
theorem least_refused : toString least = "-9223372036854775808" ∧ read (toString least) ≠ .ok least ∧
    ofJson? least.toJson = none := by
  have hread := read_least
  refine ⟨by decide +kernel, ?_, ?_⟩
  · rw [hread]
    nofun
  · show (read (toString least)).toOption = none
    rw [hread]
    rfl

end Stave.Ratio
