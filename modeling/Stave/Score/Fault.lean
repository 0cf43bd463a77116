import Stave.Score.Lexer

/-!
# What can be wrong with a score

Causes only; the wording of each is in `message`, the place it blames in `span`.
-/

namespace Stave.Score

/-- What the notation wanted where it found something else. -/
inductive Expected where
  | element
  | closeGroup
  | commaOrClose
  | duration
  | divisor
deriving DecidableEq

def Expected.text : Expected → String
  | .element => "note, rest, '(' or '['"
  | .closeGroup => "')'"
  | .commaOrClose => "',' or ']'"
  | .duration => "duration after '@'"
  | .divisor => "divisor after '/'"

/-- What is wrong with a number or an octave. -/
inductive NumberFlaw where
  | degreeNotWhole
  | degreeRange
  | octaveRange
  | amountRange
  | negativeDuration
  | divisorNotPositive
  | durationRange
deriving DecidableEq

def NumberFlaw.text : NumberFlaw → String
  | .degreeNotWhole => "scale degrees are whole numbers"
  | .degreeRange => "degree out of range"
  | .octaveRange => "octave out of range"
  | .amountRange => "amount out of range"
  | .negativeDuration => "durations cannot be negative"
  | .divisorNotPositive => "divisor must be positive"
  | .durationRange => "duration out of range"

/-- What cannot carry the marks of a note. -/
inductive Unmarkable where
  | rest
  | group
  | parallel
deriving DecidableEq

def Unmarkable.text : Unmarkable → String
  | .rest => "a rest"
  | .group => "a group"
  | .parallel => "a parallel block"

/-- Lexemes that form no score. -/
inductive ReadFault where
  | unexpected (expected : Expected) (found : Token) (span : Span)
  | unexpectedEnd (expected : Expected) (offset : Nat)
  | unclosed (bracket : Token) (opened : Span)
  | invalidNumber (text : List Char) (flaw : NumberFlaw) (span : Span)
  | misplacedMark (mark : Token) (target : Unmarkable) (span : Span)
deriving DecidableEq

namespace ReadFault

def span : ReadFault → Span
  | unexpected _ _ s => s
  | unexpectedEnd _ offset => .point offset
  | unclosed _ s => s
  | invalidNumber _ _ s => s
  | misplacedMark _ _ s => s

def message : ReadFault → String
  | unexpected expected found span =>
    "Expected " ++ expected.text ++ ", found " ++ toString found ++ " at " ++ toString span
  | unexpectedEnd expected offset =>
    "Unexpected end of input at byte " ++ toString offset ++ ", expected " ++ expected.text
  | unclosed bracket opened =>
    "Unclosed delimiter '" ++ toString bracket ++ "' opened at " ++ toString opened
  | invalidNumber text flaw span =>
    "Invalid number '" ++ String.ofList text ++ "' at " ++ toString span ++ ": " ++ flaw.text
  | misplacedMark mark target span =>
    "Modifier '" ++ toString mark ++ "' is not allowed on " ++ target.text ++ " at " ++
      toString span

end ReadFault

/-- A score whose times or pitches cannot be held. -/
inductive DecodeFault where
  | time (span : Span)
  | pitch (name : String) (span : Span)
deriving DecidableEq

namespace DecodeFault

def span : DecodeFault → Span
  | time s => s
  | pitch _ s => s

def message : DecodeFault → String
  | time span => "Time offset overflows at " ++ toString span
  | pitch name span => "Pitch '" ++ name ++ "' is out of range at " ++ toString span

end DecodeFault

/-- Anything wrong between a source and its events. -/
inductive Fault where
  | stray (e : Stray)
  | read (e : ReadFault)
  | decode (e : DecodeFault)
deriving DecidableEq

namespace Fault

def span : Fault → Span
  | stray e => .point e.offset
  | read e => e.span
  | decode e => e.span

/-- Where the fault begins. -/
def offset (e : Fault) : Nat := e.span.start

def message : Fault → String
  | stray e => e.message
  | read e => e.message
  | decode e => e.message

end Fault

end Stave.Score
