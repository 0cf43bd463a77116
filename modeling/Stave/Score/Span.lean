import Stave.Text.Offset

/-!
# Spans: stretches of a source

A span holds two byte offsets.  It can be cut out of its source, and shown as the line it starts
on with carets under the part it covers.
-/

namespace Stave.Score

open Stave.Text

structure Span where
  start : Nat
  stop : Nat
deriving DecidableEq, Inhabited

namespace Span

/-- The empty span at an offset. -/
def point (offset : Nat) : Span := ⟨offset, offset⟩

/-- The least span around two. -/
def merge (a b : Span) : Span := ⟨min a.start b.start, max a.stop b.stop⟩

instance : ToString Span where
  toString s := toString s.start ++ ".." ++ toString s.stop

/-- The covered text, empty for a span that does not fit its source. -/
def text (s : Span) (source : List Char) : List Char := (slice? s.start s.stop source).getD []

def isLineBreak (c : Char) : Bool := c = '\n'

/-- Number of covered characters up to the end of a line, at least one. -/
def caretCount (s : Span) (start lineStop : Nat) (source : List Char) : Nat :=
  max 1 ((slice? start (min s.stop lineStop) source).elim 0 List.length)

/-- The line on which the span starts, and a line of carets under the covered part.  A start past
the end of the source counts as its end; one inside a character has no line. -/
def underline? (s : Span) (source : List Char) : Option String := do
  let start := min s.start (byteLength source)
  let (before, after) ← splitAt? start source
  let head := (before.reverse.takeWhile (!isLineBreak ·)).reverse
  let tail := after.takeWhile (!isLineBreak ·)
  let carets := s.caretCount start (start + byteLength tail) source
  return String.ofList (head ++ tail ++ ['\n'] ++ List.replicate head.length ' ' ++
    List.replicate carets '^')

end Span

end Stave.Score
