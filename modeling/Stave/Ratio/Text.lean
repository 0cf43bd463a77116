import Stave.Numeral
import Stave.Ratio
import Stave.Text.Trim

/-!
# Ratios as text

Written `n` or `n/d`.  Read from the same forms, or from a decimal literal such as `0.75`, with
blanks around the whole and around the two parts of a quotient.
-/

namespace Stave

/-- Text that spells no ratio. -/
structure NotARatio where
  text : String
deriving DecidableEq

def NotARatio.message (e : NotARatio) : String := "invalid fraction literal '" ++ e.text ++ "'"

namespace Ratio

instance : ToString Ratio where
  toString q := if q.den = 1 then toString q.num else toString q.num ++ "/" ++ toString q.den

/-- Most digits after the point: ten to a higher power does not fit 64 bits. -/
def maxPlaces : Nat := 18

/-- A decimal literal `-?digits(.digits?)?` whose unreduced numerator fits 64 bits. -/
def ofDecimal? (cs : List Char) : Option Ratio := do
  let (negative, digits) := match cs with
    | '-' :: r => (true, r)
    | _ => (false, cs)
  let (whole, rest) := digits.span (· ≠ '.')
  let places := rest.drop 1
  guard (places.all Char.isDigit && places.length ≤ maxPlaces)
  let w ← Numeral.natural? whole
  let unit := Nat.pow 10 places.length
  let n ← Width.int64.narrow? (w * unit + Nat.ofDigitChars 10 places 0 : Nat)
  ofQuotient? (if negative then -n else n) unit

/-- A quotient of two numerals, or a decimal literal. -/
def read? (cs : List Char) : Option Ratio :=
  match cs.span (· ≠ '/') with
  | (n, _ :: d) => do
    ofQuotient? (← Numeral.integer? .int64 (Text.trim n)) (← Numeral.integer? .int64 (Text.trim d))
  | (_, []) => ofDecimal? cs

def read (s : String) : Except NotARatio Ratio :=
  let cs := Text.trim s.toList
  match read? cs with
  | some q => .ok q
  | none => .error ⟨String.ofList cs⟩

end Ratio

end Stave
