import Stave.Pitch
import Stave.Score.Span
import Stave.Score.Token

/-!
# From source to lexemes

`segments` cuts a source into stretches that are each one token, a run of blanks, or one stray
character.  A token is always as long as it can be:

    number     -?[0-9]+(\.[0-9]+)?
    note name  [A-G][#b]*(-?[0-9]+)?
    comment    //[^\n]*

Comments and blanks carry no meaning; the other segments are the items a reader sees, and a stray
character does not stop the ones after it.

    the texts of the segments of a source join to the source       (flatMap_text_segments)
-/

namespace Stave.Score

open Stave.Text

/-- What a stretch of the source is. -/
inductive SegmentKind where
  | token (t : Token)
  | blank
  | stray
deriving DecidableEq

structure Segment where
  kind : SegmentKind
  start : Nat
  text : List Char
deriving DecidableEq

/-! ## Lengths of tokens -/

def isBlank (c : Char) : Bool := c = ' ' || c = '\t' || c = '\r' || c = '\n'

/-- Number of characters at the start of a text that all pass a test. -/
def runLength (test : Char → Bool) (cs : List Char) : Nat := (cs.takeWhile test).length

/-- Length of a point with digits after it, 0 if there is none. -/
def placesLength : List Char → Nat
  | '.' :: cs =>
    match runLength Char.isDigit cs with
    | 0 => 0
    | n => n + 1
  | _ => 0

/-- Length of an optionally negative run of digits, 0 if there is none. -/
def signedLength : List Char → Nat
  | '-' :: cs =>
    match runLength Char.isDigit cs with
    | 0 => 0
    | n => n + 1
  | cs => runLength Char.isDigit cs

/-- Length of a number, 0 if there is none. -/
def numberLength (cs : List Char) : Nat :=
  match signedLength cs with
  | 0 => 0
  | n => n + placesLength (cs.drop n)

/-- Length of what follows the letter in a note name: accidentals and perhaps an octave. -/
def nameTailLength (cs : List Char) : Nat :=
  let marks := runLength NoteName.isAccidental cs
  marks + signedLength (cs.drop marks)

/-! ## Segments -/

/-- The kind of segment that begins with a character, and how many characters follow in it. -/
def segmentAt (c : Char) (tail : List Char) : SegmentKind × Nat :=
  if isBlank c then (.blank, runLength isBlank tail)
  else if c = '/' ∧ tail.head? = some '/' then
    (.token .comment, runLength (!Span.isLineBreak ·) tail)
  else if (letterClass? c).isSome then (.token .noteName, nameTailLength tail)
  else match numberLength (c :: tail) with
    | n + 1 => (.token .number, n)
    | 0 =>
      match Token.ofSymbol? c with
      | some t => (.token t, 0)
      | none => (.stray, 0)

/-- The segments of a text that begins at an offset. -/
def segments (offset : Nat) : List Char → List Segment
  | [] => []
  | c :: tail =>
    let (kind, n) := segmentAt c tail
    let text := c :: tail.take n
    ⟨kind, offset, text⟩ :: segments (offset + byteLength text) (tail.drop n)
termination_by cs => cs.length
decreasing_by
  rw [List.length_drop, List.length_cons]
  omega

/-! ## Items -/

/-- A token where it stands. -/
structure Lexeme where
  token : Token
  span : Span
  text : List Char
deriving DecidableEq

/-- A character with which no token begins. -/
structure Stray where
  offset : Nat
  found : Char
deriving DecidableEq

def Stray.message (e : Stray) : String :=
  "Unrecognized character '" ++ String.ofList [e.found] ++ "' at byte " ++ toString e.offset

abbrev Item := Except Stray Lexeme

def Segment.item? (s : Segment) : Option Item :=
  match s.kind with
  | .blank | .token .comment => none
  | .token t => some (.ok ⟨t, ⟨s.start, s.start + byteLength s.text⟩, s.text⟩)
  | .stray => some (.error ⟨s.start, s.text.headD ' '⟩)

/-- What a reader sees of a source. -/
def items (source : List Char) : List Item := (segments 0 source).filterMap Segment.item?

/-- The lexemes of a source, or its first stray character. -/
def tokenize (source : List Char) : Except Stray (List Lexeme) := (items source).mapM id

/-! ## A lexer with one item of lookahead -/

/-- A place in a source: the text from an offset on and, once it has been looked at, the item before
that text.  The end may have been looked at too, and is then `some none`. -/
structure Lexer where
  offset : Nat
  rest : List Char
  peeked : Option (Option Item) := none

namespace Lexer

def ofSource (source : List Char) : Lexer := { offset := 0, rest := source }

/-- The first item of a text that begins at an offset, `none` at the end, and the place after it.
Blanks and comments on the way are passed over. -/
def scan (offset : Nat) : List Char → Option Item × Lexer
  | [] => (none, { offset, rest := [] })
  | c :: tail =>
    let (kind, n) := segmentAt c tail
    let text := c :: tail.take n
    let stop := offset + byteLength text
    match Segment.item? ⟨kind, offset, text⟩ with
    | none => scan stop (tail.drop n)
    | some item => (some item, { offset := stop, rest := tail.drop n })
termination_by cs => cs.length
decreasing_by
  rw [List.length_drop, List.length_cons]
  omega

/-- Takes the next item: the one that was looked at, if there is one. -/
def next? (l : Lexer) : Option Item × Lexer :=
  match l.peeked with
  | some item => (item, { l with peeked := none })
  | none => scan l.offset l.rest

/-- Looks at the next item, which is kept to be taken. -/
def look (l : Lexer) : Option Item × Lexer :=
  match l.peeked with
  | some item => (item, l)
  | none =>
    let (item, l) := l.next?
    (item, { l with peeked := some item })

/-- The item that comes next, as a look finds it. -/
def peek? (l : Lexer) : Option Item := l.look.1

end Lexer

/-! ## Lemmas -/

@[simp] theorem Lexer.look_fst (l : Lexer) : l.look.1 = l.peek? := rfl

theorem flatMap_text_segments (offset : Nat) (cs : List Char) :
    (segments offset cs).flatMap Segment.text = cs := by
  induction offset, cs using segments.induct with
  | case1 offset => simp [segments]
  | case2 offset c tail kind n h text ih =>
    rw [segments]
    simp only [h, List.flatMap_cons]
    show text ++ (segments (offset + byteLength text) (tail.drop n)).flatMap Segment.text = c :: tail
    rw [ih]
    simp [text]

end Stave.Score
