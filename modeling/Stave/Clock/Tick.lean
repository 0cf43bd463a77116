import Stave.Clock.Script

/-!
# Ticks

A tick dispatches the callbacks that are due, in queue order, and then moves time forward by one.
A failure ends the dispatch there and leaves the rest queued; a callback that terminates the clock
ends it too, and then time stands still.
-/

namespace Stave

/-- A callback's failure, as the owner of the clock sees it. -/
structure DispatchError where
  tick : Nat
  index : Nat
  source : String
deriving DecidableEq

def DispatchError.message (e : DispatchError) : String :=
  "Callback " ++ toString e.index ++ " failed at tick " ++ toString e.tick ++ ": " ++ e.source

/-- The callbacks that a tick dispatched, in order, and the failure of the last if it failed. -/
structure TickReport (κ : Type) where
  dispatched : List (Entry κ) := []
  error : Option DispatchError := none

/-- The callbacks due by now. -/
def Clock.due {κ : Type} (c : Clock κ) : List (Entry κ) := c.queue.takeWhile (·.due ≤ c.now)

namespace Stage

variable {κ σ : Type}

/-- Dispatches at most some number of due callbacks. -/
def dispatch (behave : κ → Script κ σ) : Nat → Stage κ σ → TickReport κ × Stage κ σ
  | 0, s => ({}, s)
  | n + 1, s =>
    match s.clock.queue with
    | [] => ({}, s)
    | e :: rest =>
      if e.due ≤ s.clock.now then
        match (behave e.callback).exec { s with clock := { s.clock with queue := rest } } with
        | (some source, s) => (⟨[e], some ⟨s.clock.now, e.index, source⟩⟩, s)
        | (none, s) =>
          if s.clock.state = .terminated then (⟨[e], none⟩, s)
          else
            let (report, s) := dispatch behave n s
            ({ report with dispatched := e :: report.dispatched }, s)
      else ({}, s)

/-- Moves time, unless the clock has been terminated. -/
def advance (s : Stage κ σ) : Stage κ σ :=
  if s.clock.state = .running then { s with clock := { s.clock with now := s.clock.now + 1 } } else s

/-- One tick by the owner; nothing happens unless the clock is running.  What is queued during the
tick is due later, so no more than the callbacks due at its start can be dispatched. -/
def tick (behave : κ → Script κ σ) (s : Stage κ σ) : TickReport κ × Stage κ σ :=
  if s.clock.state = .running then
    let (report, s) := dispatch behave s.clock.due.length s
    (report, s.advance)
  else ({}, s)

/-- A call by the owner. -/
def call (s : Stage κ σ) (c : Call κ) : Except TimingError (Stage κ σ × Nat) := do
  let (clock, queued) ← s.clock.answer .owner c
  return ({ s with clock }, queued)

/-- At most some number of ticks, until nothing is queued; the first failure ends them. -/
def drain (behave : κ → Script κ σ) : Nat → Stage κ σ → Except DispatchError (Stage κ σ)
  | 0, s => .ok s
  | n + 1, s =>
    if s.clock.queue.isEmpty then .ok s
    else match s.tick behave with
      | (⟨_, some e⟩, _) => .error e
      | (_, s) => drain behave n s

end Stage

end Stave
