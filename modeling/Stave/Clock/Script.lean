import Stave.Clock

/-!
# What callbacks do

A script is a callback at work: it looks at its clock, acts on the host's own state, calls the
clock, and ends well or with a message.  A script may also ask for a tick; the clock is already in
one, so nothing happens.
-/

namespace Stave

/-- A callback's work on a clock of callbacks `κ` and a host state `σ`. -/
inductive Script (κ σ : Type) where
  | done
  | fail (message : String)
  | look (next : View → Script κ σ)
  | act (effect : σ → Option String × σ) (next : Script κ σ)
  | call (call : Call κ) (next : Except TimingError Nat → Script κ σ)
  | tick (next : Script κ σ)

/-- A clock and the state that its callbacks act on. -/
structure Stage (κ σ : Type) where
  clock : Clock κ
  host : σ

/-- Runs a script inside a tick; answers with the message it failed with, if it did. -/
def Script.exec {κ σ : Type} : Script κ σ → Stage κ σ → Option String × Stage κ σ
  | .done, s => (none, s)
  | .fail message, s => (some message, s)
  | .look next, s => (next s.clock.view).exec s
  | .act effect next, s =>
    match effect s.host with
    | (none, host) => next.exec { s with host }
    | (some message, host) => (some message, { s with host })
  | .call c next, s =>
    match s.clock.answer .callback c with
    | .ok (clock, queued) => (next (.ok queued)).exec { s with clock }
    | .error e => (next (.error e)).exec s
  | .tick next, s => next.exec s

end Stave
