import Stave.Ratio.Text

/-!
# A logical clock and its queue

A clock counts ticks and keeps callbacks until their tick comes.  The queue is in the order of
dispatch: by due tick, and among equal ticks by the order in which they were queued.  A callback
is a name here; what it does when its tick comes is said elsewhere.

Everything a clock can be asked, apart from moving time, is a `Call`, and `answer` either refuses
it, with the clock unchanged, or gives the clock after it and the number of callbacks queued.
-/

namespace Stave

/-- Why work could not be put on a clock. -/
inductive TimingError where
  | negativeOffset (offset : Int)
  | negativeStart (start : Ratio)
  | zeroResolution
  | tickOverflow (beats : Ratio)
deriving DecidableEq

def TimingError.message : TimingError → String
  | .negativeOffset offset => "Cannot schedule at negative offset " ++ toString offset
  | .negativeStart start =>
    "Cannot bind an event starting at negative time " ++ toString start
  | .zeroResolution => "Ticks per beat must be positive"
  | .tickOverflow beats => "Beat offset " ++ toString beats ++ " does not fit in a tick count"

/-- `terminated` is final. -/
inductive ClockState where
  | stopped
  | running
  | terminated
deriving DecidableEq

def ClockState.name : ClockState → String
  | .stopped => "Stopped"
  | .running => "Running"
  | .terminated => "Terminated"

/-- A callback in the queue; `index` counts the callbacks queued before it. -/
structure Entry (κ : Type) where
  due : Nat
  index : Nat
  callback : κ

namespace Entry

variable {κ : Type}

/-- The order of dispatch. -/
def Before (a b : Entry κ) : Prop := a.due < b.due ∨ a.due = b.due ∧ a.index < b.index

instance (a b : Entry κ) : Decidable (a.Before b) := inferInstanceAs (Decidable (_ ∨ _))

/-- Puts an entry in front of the first one that it comes before. -/
def insert (e : Entry κ) : List (Entry κ) → List (Entry κ)
  | [] => [e]
  | f :: fs => if e.Before f then e :: f :: fs else f :: insert e fs

end Entry

structure Clock (κ : Type) where
  now : Nat := 0
  state : ClockState := .stopped
  queue : List (Entry κ) := []
  nextIndex : Nat := 0

/-- Who asks something of a clock: its owner between ticks, or a callback during one. -/
inductive Caller where
  | owner
  | callback
deriving DecidableEq

/-- The least number of ticks ahead: what a callback queues is never due in its own tick. -/
def Caller.lead : Caller → Nat
  | .owner => 0
  | .callback => 1

/-- What can be asked of a clock. -/
inductive Call (κ : Type) where
  | run (first : Option κ)
  | schedule (offset : Int) (callback : κ)
  | scheduleAll (callbacks : List (Nat × κ))
  | terminate

/-- What can be seen of a clock. -/
structure View where
  now : Nat
  state : ClockState
  pending : Nat
deriving DecidableEq

namespace Clock

variable {κ : Type}

def view (c : Clock κ) : View := ⟨c.now, c.state, c.queue.length⟩

def isRunning (c : Clock κ) : Bool := c.state = .running

instance : ToString (Clock κ) where
  toString c := "Clock \x7b now: " ++ toString c.now ++ ", state: " ++ c.state.name ++
    ", pending: " ++ toString c.queue.length ++ " \x7d"

/-- Queues a callback some ticks from now. -/
def enqueue (c : Clock κ) (caller : Caller) (offset : Nat) (callback : κ) : Clock κ :=
  { c with
    queue := Entry.insert ⟨c.now + max offset caller.lead, c.nextIndex, callback⟩ c.queue
    nextIndex := c.nextIndex + 1 }

def enqueueAll (c : Clock κ) (caller : Caller) (callbacks : List (Nat × κ)) : Clock κ :=
  callbacks.foldl (fun c (offset, callback) => c.enqueue caller offset callback) c

/-- The clock after a call, and how many callbacks it queued; a terminated clock queues none. -/
def answer (c : Clock κ) (caller : Caller) : Call κ → Except TimingError (Clock κ × Nat)
  | .run first =>
    if c.state = .terminated then .ok (c, 0)
    else match first with
      | none => .ok ({ c with state := .running }, 0)
      | some callback => .ok ({ c with state := .running }.enqueue caller 0 callback, 1)
  | .schedule offset callback =>
    if offset < 0 then .error (.negativeOffset offset)
    else if c.state = .terminated then .ok (c, 0)
    else .ok (c.enqueue caller offset.toNat callback, 1)
  | .scheduleAll callbacks =>
    if c.state = .terminated then .ok (c, 0)
    else .ok (c.enqueueAll caller callbacks, callbacks.length)
  | .terminate => .ok ({ c with state := .terminated, queue := [] }, 0)

end Clock

end Stave
