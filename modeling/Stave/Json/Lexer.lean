import Stave.Json

/-!
# Tokens of JSON text

The text is cut into brackets, separators and scalar values.  A token begins at a character that
is not blank, and `tokenAt?` says how many of the characters after it belong to it.
-/

namespace Stave.Json

inductive Token where
  | openArray
  | closeArray
  | openObject
  | closeObject
  | comma
  | colon
  | scalar (value : Json)

def isBlank (c : Char) : Bool := c = ' ' || c = '\n' || c = '\r' || c = '\t'

/-! ## Text between quotes -/

def hexValue? (c : Char) : Option Nat :=
  if '0' ≤ c ∧ c ≤ '9' then some (c.toNat - '0'.toNat)
  else if 'a' ≤ c ∧ c ≤ 'f' then some (c.toNat - 'a'.toNat + 10)
  else if 'A' ≤ c ∧ c ≤ 'F' then some (c.toNat - 'A'.toNat + 10)
  else none

/-- The number spelt by four hexadecimal digits. -/
def fourHex? (a b c d : Char) : Option Nat := do
  return (((← hexValue? a) * 16 + (← hexValue? b)) * 16 + (← hexValue? c)) * 16 + (← hexValue? d)

/-- The character that a backslash and one letter stand for. -/
def shortEscape? : Char → Option Char
  | '\x22' => some '\x22'
  | '\\' => some '\\'
  | '/' => some '/'
  | 'b' => some '\x08'
  | 'f' => some '\x0c'
  | 'n' => some '\n'
  | 'r' => some '\r'
  | 't' => some '\t'
  | _ => none

/-- Either a character or the 16-bit unit of a numeric escape. -/
inductive Piece where
  | char (c : Char)
  | unit (n : Nat)

/-- The pieces up to the closing quote, and how many characters they and the quote take. -/
def textBody? : List Char → Option (List Piece × Nat)
  | '\x22' :: _ => some ([], 1)
  | '\\' :: 'u' :: a :: b :: c :: d :: cs => do
    let n ← fourHex? a b c d
    let (ps, k) ← textBody? cs
    return (.unit n :: ps, k + 6)
  | '\\' :: e :: cs => do
    let c ← shortEscape? e
    let (ps, k) ← textBody? cs
    return (.char c :: ps, k + 2)
  | c :: cs =>
    if c = '\\' ∨ c.toNat < 0x20 then none
    else (textBody? cs).map fun (ps, k) => (.char c :: ps, k + 1)
  | [] => none

def isHighUnit (n : Nat) : Bool := 0xD800 ≤ n && n < 0xDC00
def isLowUnit (n : Nat) : Bool := 0xDC00 ≤ n && n < 0xE000

/-- The characters that the pieces spell; `none` if half of a surrogate pair stands alone. -/
def charsOf? : List Piece → Option (List Char)
  | [] => some []
  | .char c :: ps => (charsOf? ps).map (c :: ·)
  | .unit n :: .unit m :: ps =>
    if isHighUnit n then
      if isLowUnit m then
        (charsOf? ps).map (Char.ofNat (0x10000 + (n - 0xD800) * 0x400 + (m - 0xDC00)) :: ·)
      else none
    else if isLowUnit n then none
    else (charsOf? (.unit m :: ps)).map (Char.ofNat n :: ·)
  | .unit n :: ps =>
    if isHighUnit n || isLowUnit n then none else (charsOf? ps).map (Char.ofNat n :: ·)

def textOf (ps : List Piece) : Json :=
  match charsOf? ps with
  | some cs => .string (String.ofList cs)
  | none => .unreadable

/-! ## Numbers -/

def digitCount (cs : List Char) : Nat := (cs.takeWhile Char.isDigit).length

/-- Length of an integer part: a zero alone or digits that begin with another; 0 if there is none. -/
def wholeLength : List Char → Nat
  | '0' :: _ => 1
  | cs => digitCount cs

/-- Length of a part that begins with a mark and then needs digits; `none` if they are missing. -/
def markedLength? (mark : List Char → Nat) (cs : List Char) : Option Nat :=
  match mark cs with
  | 0 => some 0
  | k => match digitCount (cs.drop k) with
    | 0 => none
    | d => some (k + d)

def signLength : List Char → Nat
  | '-' :: _ => 1
  | _ => 0

def pointLength : List Char → Nat
  | '.' :: _ => 1
  | _ => 0

def exponentMarkLength : List Char → Nat
  | e :: s :: _ => if e = 'e' ∨ e = 'E' then (if s = '+' ∨ s = '-' then 2 else 1) else 0
  | [e] => if e = 'e' ∨ e = 'E' then 1 else 0
  | [] => 0

/-- The numeral at the start of a text and its length. -/
def numeral? (cs : List Char) : Option (Json × Nat) := do
  let sign := signLength cs
  let whole := wholeLength (cs.drop sign)
  guard (whole ≠ 0)
  let point ← markedLength? pointLength (cs.drop (sign + whole))
  let exponent ← markedLength? exponentMarkLength (cs.drop (sign + whole + point))
  let length := sign + whole + point + exponent
  let value := Nat.ofDigitChars 10 ((cs.drop sign).take whole) 0
  if point = 0 ∧ exponent = 0 ∧ ¬(sign = 1 ∧ value = 0) then
    return (.integer (if sign = 1 then -value else value), length)
  else
    return (.decimal (String.ofList (cs.take length)), length)

/-! ## Tokens -/

/-- The named constant at the start of a text and its length. -/
def constant? (cs : List Char) : Option (Json × Nat) :=
  if "null".toList.isPrefixOf cs then some (.null, 4)
  else if "true".toList.isPrefixOf cs then some (.bool true, 4)
  else if "false".toList.isPrefixOf cs then some (.bool false, 5)
  else none

/-- The token that begins with a character, and how many of the following ones it takes. -/
def tokenAt? (c : Char) (tail : List Char) : Option (Token × Nat) :=
  match c with
  | '[' => some (.openArray, 0)
  | ']' => some (.closeArray, 0)
  | '\x7b' => some (.openObject, 0)
  | '\x7d' => some (.closeObject, 0)
  | ',' => some (.comma, 0)
  | ':' => some (.colon, 0)
  | '\x22' => (textBody? tail).map fun (ps, k) => (.scalar (textOf ps), k)
  | c =>
    (if c = '-' ∨ c.isDigit then numeral? (c :: tail) else constant? (c :: tail)).map
      fun (v, k) => (.scalar v, k - 1)

def tokens? : List Char → Option (List Token)
  | [] => some []
  | c :: tail =>
    if isBlank c then tokens? tail
    else do
      let (token, k) ← tokenAt? c tail
      let rest ← tokens? (tail.drop k)
      return token :: rest
termination_by cs => cs.length
decreasing_by
  · rw [List.length_cons]
    omega
  · rw [List.length_drop, List.length_cons]
    omega

end Stave.Json
