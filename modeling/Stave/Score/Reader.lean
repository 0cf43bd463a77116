import Stave.Score.Fault
import Stave.Score.Tree

/-!
# Reading a score

A machine takes the lexemes of a source one by one.  Its state is the open brackets with what
stands before each, the elements finished inside the innermost, and perhaps an element whose marks
are still coming.  An element is sealed by the first lexeme that is no mark, or by the end.

    element  := core mark*
    core     := number | name | '~' | '(' element+ ')' | '[' element+ (',' element+)* ']'
    mark     := '@' number | '/' number | '.', and on notes also '^' '_' '!' ''' '='

The machine stops at the first lexeme that cannot continue the text before it, so of several
faults the first in the source is reported.
-/

namespace Stave.Score

/-! ## Elements in the making -/

/-- An element without its marks. -/
inductive Core where
  | note (tone : Tone)
  | rest
  | group (elements : List Node)
  | parallel (voices : List Sequence)

/-- An element and the marks read so far.  Octaves are added up in 32 bits, whose ends show in the
result.  Dots are counted without a width: past `maxDots` they change nothing, so one of 32 bits would
show only after 2 ^ 32 dots on one element. -/
structure Draft where
  core : Core
  span : Span
  factor : Ratio := 1
  dots : Nat := 0
  shift : Int := 0
  articulations : List Articulation := []
  lastMark : Option Lexeme := none

/-- The marks that a number must follow. -/
inductive AmountMark where
  | multiply
  | divide
deriving DecidableEq

def AmountMark.expected : AmountMark → Expected
  | .multiply => .duration
  | .divide => .divisor

/-- Dots past this many change nothing. -/
def maxDots : Nat := 30

/-- What a number of dots multiplies a duration by: each adds half of what the one before added. -/
def dotFactor? (dots : Nat) : Option Ratio :=
  let unit := Nat.pow 2 (min dots maxDots)
  Ratio.ofQuotient? (2 * unit - 1) unit

namespace Draft

/-- The finished element, its factor and its span given. -/
def node (d : Draft) (factor : Ratio) (span : Span) : Node :=
  match d.core with
  | .note tone => .note ⟨tone, factor, d.shift, d.articulations, span⟩
  | .rest => .rest ⟨factor, span⟩
  | .group elements => .group elements factor span
  | .parallel voices => .parallel voices factor span

/-- The element with all its marks applied; its span reaches to the last of them. -/
def sealed (d : Draft) : Except ReadFault Node :=
  match d.lastMark with
  | none => .ok (d.node d.factor d.span)
  | some mark =>
    match (dotFactor? d.dots).bind d.factor.mul? with
    | some factor => .ok (d.node factor (d.span.merge mark.span))
    | none => .error (.invalidNumber mark.text .durationRange mark.span)

/-- Takes the number after `@` or `/`. -/
def measure (d : Draft) (mark : AmountMark) (l : Lexeme) : Except ReadFault Draft :=
  let flawed (flaw : NumberFlaw) : Except ReadFault Draft := .error (.invalidNumber l.text flaw l.span)
  if l.token ≠ .number then .error (.unexpected mark.expected l.token l.span)
  else match Ratio.ofDecimal? l.text with
    | none => flawed .amountRange
    | some amount =>
      match mark with
      | .multiply =>
        if amount.isNegative then flawed .negativeDuration
        else match d.factor.mul? amount with
          | some factor => .ok { d with factor, lastMark := l }
          | none => flawed .durationRange
      | .divide =>
        if amount.isZero || amount.isNegative then flawed .divisorNotPositive
        else match d.factor.div? amount with
          | some factor => .ok { d with factor, lastMark := l }
          | none => flawed .durationRange

def dotted (d : Draft) (l : Lexeme) : Draft := { d with dots := d.dots + 1, lastMark := l }

/-- Octave marks stop counting at the ends of 32 bits. -/
def shifted (d : Draft) (octaves : Int) : Draft :=
  { d with shift := Width.int32.clamp (d.shift + octaves) }

def articulated (d : Draft) (a : Articulation) : Draft :=
  { d with articulations := d.articulations ++ [a] }

/-- Takes a mark that only a note may carry. -/
def inflect (d : Draft) (l : Lexeme) (change : Draft → Draft) : Except ReadFault Draft :=
  match d.core with
  | .note _ => .ok { change d with lastMark := l }
  | .rest => .error (.misplacedMark l.token .rest l.span)
  | .group _ => .error (.misplacedMark l.token .group l.span)
  | .parallel _ => .error (.misplacedMark l.token .parallel l.span)

end Draft

/-! ## The machine -/

/-- The kind of an open bracket, with the finished voices of a parallel block, latest first. -/
inductive Bracket where
  | group
  | parallel (voices : List Sequence)

def Bracket.opener : Bracket → Token
  | .group => .openGroup
  | .parallel _ => .openParallel

/-- An open bracket and the elements before it on its own level, latest first. -/
structure Level where
  bracket : Bracket
  opened : Span
  before : List Node

/-- What the element under way still allows. -/
inductive Phase where
  | between
  | marks (draft : Draft)
  | amount (draft : Draft) (mark : AmountMark)

structure Reading where
  outer : List Level := []
  here : List Node := []
  phase : Phase := .between

/-- Elements read in this order, latest first, as a voice; there must be some. -/
def voiceOf? : List Node → Option Sequence
  | [] => none
  | last :: before =>
    let first := before.getLast?.getD last
    some ⟨(last :: before).reverse, first.span.merge last.span⟩

/-- A whole number in the width of a degree. -/
def degreeOf (l : Lexeme) : Except ReadFault Int :=
  if l.text.contains '.' then .error (.invalidNumber l.text .degreeNotWhole l.span)
  else match Numeral.integer? .int64 l.text with
    | some n => .ok n
    | none => .error (.invalidNumber l.text .degreeRange l.span)

def nameOf (l : Lexeme) : Except ReadFault NoteName :=
  match NoteName.read? l.text with
  | some name => .ok name
  | none => .error (.invalidNumber l.text .octaveRange l.span)

namespace Reading

/-- Begins an element whose core is complete. -/
def draw (r : Reading) (core : Core) (span : Span) : Reading :=
  { r with phase := .marks { core, span } }

/-- Goes inside a bracket. -/
def enter (r : Reading) (bracket : Bracket) (opened : Span) : Reading :=
  { outer := ⟨bracket, opened, r.here⟩ :: r.outer, here := [], phase := .between }

/-- Takes a lexeme that can begin no element: it must divide or close the innermost bracket. -/
def punctuate (r : Reading) (l : Lexeme) : Except ReadFault Reading :=
  match r.outer with
  | [] => .error (.unexpected .element l.token l.span)
  | ⟨.group, opened, before⟩ :: outer =>
    if l.token ≠ .closeGroup then .error (.unexpected .closeGroup l.token l.span)
    else match r.here with
      | [] => .error (.unexpected .element l.token l.span)
      | _ :: _ =>
        .ok (draw { outer, here := before } (.group r.here.reverse) (opened.merge l.span))
  | ⟨.parallel voices, opened, before⟩ :: outer =>
    match voiceOf? r.here with
    | none => .error (.unexpected .element l.token l.span)
    | some voice =>
      match l.token with
      | .comma => .ok { r with outer := ⟨.parallel (voice :: voices), opened, before⟩ :: outer, here := [] }
      | .closeParallel =>
        .ok (draw { outer, here := before } (.parallel (voice :: voices).reverse) (opened.merge l.span))
      | _ => .error (.unexpected .commaOrClose l.token l.span)

/-- Takes a lexeme where no element is under way. -/
def receive (r : Reading) (l : Lexeme) : Except ReadFault Reading :=
  match l.token with
  | .number => do return r.draw (.note (.degree (← degreeOf l))) l.span
  | .noteName => do return r.draw (.note (.named (← nameOf l))) l.span
  | .rest => .ok (r.draw .rest l.span)
  | .openGroup => .ok (r.enter .group l.span)
  | .openParallel => .ok (r.enter (.parallel []) l.span)
  | _ => r.punctuate l

/-- Ends the marks of an element. -/
def settle (r : Reading) (d : Draft) : Except ReadFault Reading := do
  return { r with here := (← d.sealed) :: r.here, phase := .between }

/-- Takes a lexeme after an element: one more mark, or the end of its marks. -/
def mark (r : Reading) (d : Draft) (l : Lexeme) : Except ReadFault Reading :=
  let marked (d : Except ReadFault Draft) : Except ReadFault Reading := do
    return { r with phase := .marks (← d) }
  match l.token with
  | .multiply => .ok { r with phase := .amount d .multiply }
  | .divide => .ok { r with phase := .amount d .divide }
  | .dot => marked (.ok (d.dotted l))
  | .up => marked (d.inflect l (·.shifted 1))
  | .down => marked (d.inflect l (·.shifted (-1)))
  | .accent => marked (d.inflect l (·.articulated .accent))
  | .staccato => marked (d.inflect l (·.articulated .staccato))
  | .tenuto => marked (d.inflect l (·.articulated .tenuto))
  | _ => do (← r.settle d).receive l

def step (r : Reading) (l : Lexeme) : Except ReadFault Reading :=
  match r.phase with
  | .between => r.receive l
  | .marks d => r.mark d l
  | .amount d m => do return { r with phase := .marks (← d.measure m l) }

/-- Takes an item of the source. -/
def take (r : Reading) : Item → Except Fault Reading
  | .error stray => .error (.stray stray)
  | .ok l => (r.step l).mapError .read

/-- The root sequence, every bracket being closed. -/
def close (r : Reading) (length : Nat) : Except ReadFault Sequence :=
  match r.outer with
  | [] => .ok ⟨r.here.reverse, ⟨0, length⟩⟩
  | level :: _ => .error (.unclosed level.bracket.opener level.opened)

/-- What the end of a source of a length makes of the reading. -/
def finish (r : Reading) (length : Nat) : Except ReadFault Sequence :=
  match r.phase with
  | .between => r.close length
  | .marks d => do (← r.settle d).close length
  | .amount _ m => .error (.unexpectedEnd m.expected length)

end Reading

/-- The score that a source spells. -/
def read (source : List Char) : Except Fault Sequence := do
  let reading ← (items source).foldlM Reading.take {}
  (reading.finish (Text.byteLength source)).mapError .read

end Stave.Score
