import Stave.Width

/-!
# JSON values

The value type and the questions a record reader asks of it.  Whole numbers are kept apart from
all other numerals: `1.0`, `1e0` and `-0` are numbers, but no integers.

    record? names partly j       the values of the named fields, each at most once, others ignored;
                                 an array stands for its elements' fields in order
    variant? j                   a name alone, or a name with a payload
    height j                     how deep the brackets of a value nest
-/

namespace Stave

/-- `unreadable` is text that could not be decoded: it is a value, but only to be skipped. -/
inductive Json where
  | null
  | bool (value : Bool)
  | integer (value : Int)
  | decimal (literal : String)
  | string (text : String)
  | array (items : List Json)
  | object (fields : List (String × Json))
  | unreadable
deriving Inhabited

namespace Json

mutual

/-- Number of brackets around the innermost value. -/
def height : Json → Nat
  | .array items => itemsHeight items + 1
  | .object fields => fieldsHeight fields + 1
  | _ => 0

def itemsHeight : List Json → Nat
  | [] => 0
  | j :: js => max (height j) (itemsHeight js)

def fieldsHeight : List (String × Json) → Nat
  | [] => 0
  | (_, j) :: fs => max (height j) (fieldsHeight fs)

end

def natural (n : Nat) : Json := .integer n

/-- `null` for an absent value. -/
def ofOption {α : Type} (f : α → Json) : Option α → Json
  | some a => f a
  | none => .null

def integer? (w : Width) : Json → Option Int
  | .integer n => w.narrow? n
  | _ => none

def natural? (w : Width) (j : Json) : Option Nat := (j.integer? w).map Int.toNat

def string? : Json → Option String
  | .string s => some s
  | _ => none

/-- A text of exactly one character. -/
def char? : Json → Option Char
  | .string s =>
    match s.toList with
    | [c] => some c
    | _ => none
  | _ => none

/-- Every item of an array, read alike. -/
def list? {α : Type} (item? : Json → Option α) : Json → Option (List α)
  | .array items => items.mapM item?
  | _ => none

/-- A value that may be absent, be it left out or `null`. -/
def optional? {α : Type} (read? : Json → Option α) : Option Json → Option (Option α)
  | none | some .null => some none
  | some j => (read? j).map some

/-- A value with a default for when it is left out. -/
def defaulted? {α : Type} (default : α) (read? : Json → Option α) : Option Json → Option α
  | none => some default
  | some j => read? j

/-- The values under one name. -/
def valuesOf (name : String) (fields : List (String × Json)) : List Json :=
  fields.filterMap fun (n, v) => if n = name then some v else none

/-- The value under a name, `none` inside for a name left out; refused if the name is repeated. -/
def field? (name : String) (fields : List (String × Json)) : Option (Option Json) :=
  match valuesOf name fields with
  | [] => some none
  | [v] => some (some v)
  | _ => none

/-- The named fields of a record, written as an object or as the array of its fields in order.
An array must be complete, unless the record may be given `partly`. -/
def record? (names : List String) (partly : Bool) : Json → Option (List (Option Json))
  | .object fields => names.mapM fun name => field? name fields
  | .array items =>
    if items.length ≤ names.length ∧ (partly ∨ items.length = names.length) then
      some (items.map some ++ List.replicate (names.length - items.length) none)
    else none
  | _ => none

/-- One alternative of several: its name, and the payload if it has one. -/
def variant? : Json → Option (String × Option Json)
  | .string name => some (name, none)
  | .object [(name, payload)] => some (name, some payload)
  | _ => none

end Json

end Stave
