import Stave.Sequencer

/-!
# Sessions: a clock driven by commands

The owner of a clock performs operations on it one by one.  An action is a list of commands run by
a callback; the first that fails makes the callback fail.  Notes of bound events go to a sink, and
whatever the commands have to tell goes to a log, stamped with the tick.
-/

namespace Stave.Session

/-- One thing for a callback to do. -/
inductive Command where
  | log (text : String)
  | pending
  | state
  | schedule (offset : Int) (action : List Command)
  | trySchedule (offset : Int) (action : List Command)
  | run (action : Option (List Command))
  | tick
  | terminate
  | fail (text : String)
  | bind (ticksPerBeat : UInt32) (events : List Event)
  | every (interval : Int) (text : String)

inductive Callback where
  | cue (cue : Cue)
  | action (commands : List Command)

/-- What is written in the log. -/
inductive Remark where
  | text (text : String)
  | count (count : Nat)
deriving DecidableEq

structure LogEntry where
  tick : Nat
  remark : Remark
deriving DecidableEq

structure Host where
  log : List LogEntry := []
  sink : Sink := {}

abbrev Work := Script Callback Host

/-- Writes something about the clock in the log. -/
def remark (what : View → Remark) (next : Work) : Work :=
  .look fun view =>
    .act (fun host => (none, { host with log := host.log ++ [⟨view.now, what view⟩] })) next

/-- The cues of some events at a resolution, as callbacks. -/
def cuesOf (ticksPerBeat : UInt32) (events : List Event) :
    Except TimingError (List (Nat × Callback)) := do
  (← Resolution.build ticksPerBeat).cues .cue events

/-- A call whose refusal is a failure. -/
def insist (call : Call Callback) (next : Nat → Work) : Work :=
  .call call fun
    | .ok queued => next queued
    | .error e => .fail e.message

/-- A command and what comes after it. -/
def Command.script (next : Work) : Command → Work
  | .log text => remark (fun _ => .text text) next
  | .pending => remark (fun view => .count view.pending) next
  | .state => remark (fun view => .text view.state.name) next
  | .schedule offset action => insist (.schedule offset (.action action)) fun _ => next
  | .trySchedule offset action =>
    .call (.schedule offset (.action action)) fun
      | .ok _ => next
      | .error e => remark (fun _ => .text e.message) next
  | .run action => insist (.run (action.map .action)) fun _ => next
  | .tick => .tick next
  | .terminate => insist .terminate fun _ => next
  | .fail text => .fail text
  | .bind ticksPerBeat events =>
    match cuesOf ticksPerBeat events with
    | .ok cues => insist (.scheduleAll cues) fun queued => remark (fun _ => .count queued) next
    | .error e => .fail e.message
  | .every interval text =>
    remark (fun _ => .text text)
      (insist (.schedule interval (.action [.every interval text])) fun _ => next)

def scriptOf (commands : List Command) : Work := commands.foldr (fun c next => c.script next) .done

/-- Sends a cue's message to the sink. -/
def play (cue : Cue) : Work :=
  .look fun view => .act (fun host =>
    let (failure, sink) := host.sink.receive (cue.message view.now)
    (failure, { host with sink })) .done

def behave : Callback → Work
  | .cue cue => play cue
  | .action commands => scriptOf commands

/-! ## The owner -/

inductive Operation where
  | run (action : Option (List Command))
  | schedule (offset : Int) (action : List Command)
  | tick (count : Nat)
  | terminate
  | bind (ticksPerBeat : UInt32) (events : List Event)

/-- What the owner hears of an operation. -/
inductive Answer where
  | done
  | refused (e : TimingError)
  | errors (es : List DispatchError)
  | bound (count : Nat)

abbrev State := Stage Callback Host

def State.start (failing : List Nat) : State := ⟨{}, { sink := { failing } }⟩

/-- One more tick after some errors. -/
def tickOn : List DispatchError × State → List DispatchError × State
  | (errors, s) =>
    let (report, s) := s.tick behave
    (errors ++ report.error.toList, s)

/-- Some ticks, going on after failures. -/
def ticks (count : Nat) (s : State) : List DispatchError × State := Nat.repeat tickOn count ([], s)

/-- A call by the owner, whose answer is drawn from the number of callbacks queued. -/
def ask (s : State) (call : Call Callback) (answer : Nat → Answer) : Answer × State :=
  match s.call call with
  | .ok (s, queued) => (answer queued, s)
  | .error e => (.refused e, s)

def Operation.perform (s : State) : Operation → Answer × State
  | .run action => ask s (.run (action.map .action)) fun _ => .done
  | .schedule offset action => ask s (.schedule offset (.action action)) fun _ => .done
  | .tick count =>
    let (errors, s) := ticks count s
    (.errors errors, s)
  | .terminate => ask s .terminate fun _ => .done
  | .bind ticksPerBeat events =>
    match cuesOf ticksPerBeat events with
    | .ok cues => ask s (.scheduleAll cues) .bound
    | .error e => (.refused e, s)

end Stave.Session
