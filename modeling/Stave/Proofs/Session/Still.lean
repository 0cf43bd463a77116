import Stave.Proofs.Clock.Still
import Stave.Proofs.Sequencer.Player
import Stave.Proofs.Session

/-!
# Only the owner moves time

The ticks that actions ask for can be struck from a session, at whatever depth they stand in actions
that schedule actions: nothing that the owner hears or sees is different, and the log and the sink
are the same.  Whatever an action writes during a tick is stamped with the time of that tick, and
the time changes between ticks only.

    behave c.still = (behave c).still Callback.still                      (behave_still)
    op.still answers as op does, and leaves the same stage but for the
      ticks in what is queued                                             (perform_still)
    a tick writes at its own time                                         (wrote_tick)
    all of this, on a clock with its guard and without, and for callbacks
      of any kind                                                         (only_owner_moves_time)
-/

namespace Stave

namespace Session

/-! ## Sessions without ticks -/

mutual

/-- A command with the ticks struck from the actions in it, or nothing for a tick. -/
def Command.still : Command → List Command
  | .schedule offset action => [.schedule offset (stillAll action)]
  | .trySchedule offset action => [.trySchedule offset (stillAll action)]
  | .run action => [.run (stillFirst action)]
  | .tick => []
  | .log text => [.log text]
  | .pending => [.pending]
  | .state => [.state]
  | .terminate => [.terminate]
  | .fail text => [.fail text]
  | .bind ticksPerBeat events => [.bind ticksPerBeat events]
  | .every interval text => [.every interval text]

def stillAll : List Command → List Command
  | [] => []
  | c :: commands => c.still ++ stillAll commands

def stillFirst : Option (List Command) → Option (List Command)
  | none => none
  | some action => some (stillAll action)

end

def Callback.still : Callback → Callback
  | .cue c => .cue c
  | .action commands => .action (stillAll commands)

def Operation.still : Operation → Operation
  | .run action => .run (stillFirst action)
  | .schedule offset action => .schedule offset (stillAll action)
  | .tick count => .tick count
  | .terminate => .terminate
  | .bind ticksPerBeat events => .bind ticksPerBeat events

theorem map_stillFirst (action : Option (List Command)) :
    (stillFirst action).map Callback.action = (action.map .action).map Callback.still := by
  cases action <;> rfl

/-- There are no ticks in cues. -/
theorem scheduleAll_still {ticksPerBeat : UInt32} {events : List Event}
    {cues : List (Nat × Callback)} (h : cuesOf ticksPerBeat events = .ok cues) :
    (Call.scheduleAll cues).map Callback.still = .scheduleAll cues := by
  rw [cuesOf] at h
  cases hr : Resolution.build ticksPerBeat with
  | error e =>
    rw [hr] at h
    cases h
  | ok r =>
    rw [hr] at h
    have hcues : r.cues Callback.cue events = .ok cues := h
    have hstill := r.cues_map (f := Callback.still) Callback.cue events
    rw [hcues] at hstill
    exact congrArg Call.scheduleAll (Except.ok.inj (hstill.symm.trans hcues))

/-! ## What they do -/

theorem insist_still (call : Call Callback) (next : Nat → Work) :
    (insist call next).still Callback.still =
      insist (call.map Callback.still) fun queued => (next queued).still Callback.still := by
  rw [insist, insist, Script.still]
  congr 1
  funext answer
  cases answer <;> rfl

theorem remark_still (what : View → Remark) (next : Work) :
    (remark what next).still Callback.still = remark what (next.still Callback.still) := rfl

/-- A command without its ticks does what is left of the script for it. -/
theorem Command.script_still (c : Command) (next : Work) :
    (c.script next).still Callback.still =
      c.still.foldr (fun c next => c.script next) (next.still Callback.still) := by
  -- a command queues the actions in it but does not run them, so nothing is needed of them
  cases c with
  | schedule offset action => exact insist_still _ _
  | trySchedule offset action =>
    rw [script, Command.still, List.foldr_cons, List.foldr_nil, script, Script.still]
    congr 1
    funext answer
    cases answer <;> rfl
  | run action =>
    rw [script, insist_still, Command.still, List.foldr_cons, List.foldr_nil, script,
      map_stillFirst]
    rfl
  | bind ticksPerBeat events =>
    rw [script, Command.still, List.foldr_cons, List.foldr_nil, script]
    cases hc : cuesOf ticksPerBeat events with
    | error e => rfl
    | ok cues =>
      show (insist _ _).still _ = insist _ _
      rw [insist_still, scheduleAll_still hc]
      rfl
  | every interval text =>
    rw [script, remark_still, insist_still]
    rfl
  | terminate => exact insist_still _ _
  | _ => rfl

theorem scriptOf_still (commands : List Command) :
    (scriptOf commands).still Callback.still = scriptOf (stillAll commands) := by
  induction commands with
  | nil => rfl
  | cons c commands ih =>
    show (c.script (scriptOf commands)).still Callback.still = _
    rw [c.script_still, ih, stillAll, scriptOf, scriptOf, List.foldr_append]

theorem behave_still (callback : Callback) :
    behave callback.still = (behave callback).still Callback.still := by
  cases callback with
  | cue cue => rfl
  | action commands => exact (scriptOf_still commands).symm

/-! ## What the owner hears and sees -/

theorem Operation.moves_still (op : Operation) :
    op.still.moves = op.moves.map (Move.map Callback.still) := by
  cases op with
  | run action =>
    rw [still, moves, map_stillFirst]
    rfl
  | schedule offset action => rfl
  | tick count =>
    rw [still, moves, List.map_replicate]
    rfl
  | terminate => rfl
  | bind ticksPerBeat events =>
    rw [still, moves]
    cases Resolution.build ticksPerBeat with
    | error e => rfl
    | ok r => rfl

theorem moves_still (ops : List Operation) : (ops.map Operation.still).flatMap Operation.moves =
    (ops.flatMap Operation.moves).map (Move.map Callback.still) := by
  induction ops with
  | nil => rfl
  | cons op ops ih =>
    rw [List.map_cons, List.flatMap_cons, List.flatMap_cons, List.map_append, op.moves_still, ih]

/-- What the owner hears of each operation, and what it sees after it. -/
def told : State → List Operation → List (Answer × View × Host)
  | _, [] => []
  | s, op :: ops =>
    ((op.perform s).1, (op.perform s).2.clock.view, (op.perform s).2.host) ::
      told (op.perform s).2 ops

theorem ask_still (s : State) (call : Call Callback) (answer : Nat → Answer) :
    ask (s.map Callback.still) (call.map Callback.still) answer =
      ((ask s call answer).1, (ask s call answer).2.map Callback.still) := by
  have hanswer : (s.map Callback.still).clock.answer .owner (call.map Callback.still) = _ :=
    s.clock.answer_map .owner call
  unfold ask Stage.call
  rw [hanswer]
  cases s.clock.answer .owner call <;> rfl

theorem ticks_still (count : Nat) (s : State) :
    ticks count (s.map Callback.still) =
      ((ticks count s).1, (ticks count s).2.map Callback.still) := by
  induction count with
  | zero => rfl
  | succ n ih =>
    obtain ⟨herror, hstage⟩ := Stage.tick_still behave_still (ticks n s).2
    show tickOn (ticks n (s.map Callback.still)) = _
    rw [ih]
    exact Prod.ext (congrArg (fun error : Option DispatchError => (ticks n s).1 ++ error.toList) herror)
      hstage

theorem perform_still (op : Operation) (s : State) :
    op.still.perform (s.map Callback.still) =
      ((op.perform s).1, (op.perform s).2.map Callback.still) := by
  cases op with
  | run action =>
    rw [Operation.still, Operation.perform, map_stillFirst]
    exact ask_still s (.run (action.map .action)) _
  | schedule offset action => exact ask_still s (.schedule offset (.action action)) _
  | tick count =>
    rw [Operation.still, Operation.perform, ticks_still]
    rfl
  | terminate => exact ask_still s .terminate fun _ => .done
  | bind ticksPerBeat events =>
    rw [Operation.still, Operation.perform, Operation.perform]
    cases hc : cuesOf ticksPerBeat events with
    | error e => rfl
    | ok cues =>
      have hask := ask_still s (.scheduleAll cues) Answer.bound
      rw [scheduleAll_still hc] at hask
      exact hask

theorem told_still (ops : List Operation) (s : State) :
    told (s.map Callback.still) (ops.map Operation.still) = told s ops := by
  induction ops generalizing s with
  | nil => rfl
  | cons op ops ih =>
    have hview : ((op.perform s).2.map Callback.still).clock.view = (op.perform s).2.clock.view :=
      Clock.view_map _
    rw [List.map_cons, told, told, perform_still, ih, hview]
    rfl

/-! ## What is written -/

/-- The log and the sink after something that was done on a tick: what is new there is of that
tick. -/
structure Host.Wrote (tick : Nat) (before after : Host) : Prop where
  log : ∃ new, after.log = before.log ++ new ∧ ∀ entry ∈ new, entry.tick = tick
  messages : ∃ new, after.sink.messages = before.sink.messages ++ new ∧
    ∀ message ∈ new, message.tick = tick

theorem Host.Wrote.refl (tick : Nat) (host : Host) : host.Wrote tick host :=
  ⟨⟨[], (List.append_nil _).symm, nofun⟩, ⟨[], (List.append_nil _).symm, nofun⟩⟩

theorem Host.Wrote.trans {tick : Nat} {a b c : Host} (h : a.Wrote tick b) (h' : b.Wrote tick c) :
    a.Wrote tick c := by
  have hchain : ∀ {α : Type} {f : α → Nat} {as bs cs : List α},
      (∃ new, bs = as ++ new ∧ ∀ x ∈ new, f x = tick) →
      (∃ new, cs = bs ++ new ∧ ∀ x ∈ new, f x = tick) →
      ∃ new, cs = as ++ new ∧ ∀ x ∈ new, f x = tick := by
    rintro α f as bs cs ⟨new, rfl, hnew⟩ ⟨new', rfl, hnew'⟩
    exact ⟨new ++ new', List.append_assoc .., List.forall_mem_append.2 ⟨hnew, hnew'⟩⟩
  exact ⟨hchain h.log h'.log, hchain h.messages h'.messages⟩

/-- A script that writes at the time of its clock. -/
def Timely (script : Work) : Prop :=
  ∀ s : State, s.host.Wrote s.clock.now (script.exec s).2.host

theorem timely_done : Timely .done := fun s => .refl _ s.host

theorem timely_fail (message : String) : Timely (.fail message) := fun s => .refl _ s.host

/-- Calls write nothing, and time is the same after them. -/
theorem timely_call {call : Call Callback} {next : Except TimingError Nat → Work}
    (h : ∀ answer, Timely (next answer)) : Timely (.call call next) := by
  intro s
  rw [Script.exec]
  cases ha : s.clock.answer .callback call with
  | error e => exact h (.error e) s
  | ok p =>
    have hnow : p.1.now = s.clock.now :=
      @Stable.answer _ _ _ (Stable.now s.clock.now) _ _ _ _ {} ha rfl
    have hrest := h (.ok p.2) { s with clock := p.1 }
    rw [show ({ s with clock := p.1 } : State).clock.now = s.clock.now from hnow] at hrest
    exact hrest

theorem timely_remark {what : View → Remark} {next : Work} (h : Timely next) :
    Timely (remark what next) := by
  intro s
  have hremark : s.host.Wrote s.clock.now
      ⟨s.host.log ++ [⟨s.clock.now, what s.clock.view⟩], s.host.sink⟩ :=
    ⟨⟨_, rfl, List.forall_mem_singleton.2 rfl⟩, (Host.Wrote.refl _ s.host).messages⟩
  exact hremark.trans (h ⟨s.clock, ⟨s.host.log ++ [⟨s.clock.now, what s.clock.view⟩], s.host.sink⟩⟩)

theorem timely_insist {call : Call Callback} {next : Nat → Work} (h : ∀ queued, Timely (next queued)) :
    Timely (insist call next) := by
  refine timely_call fun answer => ?_
  cases answer with
  | error e => exact timely_fail e.message
  | ok queued => exact h queued

theorem Command.timely (c : Command) {next : Work} (h : Timely next) :
    Timely (c.script next) := by
  cases c with
  | log text => exact timely_remark h
  | pending => exact timely_remark h
  | state => exact timely_remark h
  | schedule offset action => exact timely_insist fun _ => h
  | trySchedule offset action =>
    refine timely_call fun answer => ?_
    cases answer with
    | error e => exact timely_remark h
    | ok queued => exact h
  | run action => exact timely_insist fun _ => h
  | tick => exact h
  | terminate => exact timely_insist fun _ => h
  | fail text => exact timely_fail text
  | bind ticksPerBeat events =>
    rw [script]
    split
    · exact timely_insist fun _ => timely_remark h
    · exact timely_fail _
  | every interval text => exact timely_remark (timely_insist fun _ => h)

theorem timely_play (cue : Cue) : Timely (play cue) := by
  intro s
  have hexec : ((play cue).exec s).2.host =
      { s.host with sink := (s.host.sink.receive (cue.message s.clock.now)).2 } :=
    congrArg (fun result => result.2.host) (player.sends_cue cue s)
  have htick : (cue.message s.clock.now).tick = s.clock.now := by
    cases cue <;> rfl
  have hnone := Host.Wrote.refl s.clock.now s.host
  rw [hexec, Sink.receive]
  split
  · exact ⟨hnone.log, hnone.messages⟩
  · exact ⟨hnone.log, [cue.message s.clock.now], rfl, List.forall_mem_singleton.2 htick⟩

theorem timely_behave (callback : Callback) : Timely (behave callback) := by
  cases callback with
  | cue cue => exact timely_play cue
  | action commands =>
    show Timely (scriptOf commands)
    induction commands with
    | nil => exact timely_done
    | cons c commands ih => exact c.timely ih

theorem wrote_dispatch (n : Nat) (s : State) :
    s.host.Wrote s.clock.now (s.dispatch behave n).2.host := by
  have hfirst : ∀ {s s' : State} {e : Entry Callback} {rest : List (Entry Callback)}
      {failure : Option String}, (behave e.callback).exec (s.pop rest) = (failure, s') →
      s'.clock.now = s.clock.now ∧ s.host.Wrote s.clock.now s'.host := by
    intro s s' e rest failure hx
    have hnow := (Stable.now s.clock.now).exec_clock (behave e.callback) (s := s.pop rest) rfl
    have hwrote := timely_behave e.callback (s.pop rest)
    rw [hx] at hnow hwrote
    exact ⟨hnow, hwrote⟩
  induction n, s using Stage.dispatch_induct behave with
  | idle n s _ hd _ =>
    rw [hd]
    exact .refl _ _
  | fails n s e rest source s' _ _ hx hd _ =>
    rw [hd]
    exact (hfirst hx).2
  | ends n s e rest s' _ _ hx _ hd _ =>
    rw [hd]
    exact (hfirst hx).2
  | next n s e rest s' _ _ hx _ hd _ ih =>
    obtain ⟨hnow, hwrote⟩ := hfirst hx
    rw [hnow] at ih
    rw [hd]
    exact hwrote.trans ih

/-- All that is logged in a tick, and all that is sent to the sink, is of that tick. -/
theorem wrote_tick (s : State) : s.host.Wrote s.clock.now (s.tick behave).2.host := by
  by_cases hrun : s.clock.state = .running
  · have hhost : ∀ t : State, t.advance.host = t.host := by
      intro t
      unfold Stage.advance
      split <;> rfl
    rw [Stage.tick, if_pos hrun]
    show s.host.Wrote _ (s.dispatch behave _).2.advance.host
    rw [hhost]
    exact wrote_dispatch _ s
  · rw [Stage.tick, if_neg hrun]
    exact .refl _ _

/-- The stage that a session comes to. -/
def reached (failing : List Nat) (ops : List Operation) : State :=
  ops.foldl (fun s op => (op.perform s).2) (State.start failing)

end Session

/-! ## Only the owner moves time -/

/-- In a course only the owner moves time, whatever the callbacks do. -/
structure Course.Timed {κ σ : Type} (behave : κ → Script κ σ) (host : σ) (moves : List (Move κ)) :
    Prop where
  /-- The owner of a clock that callbacks may tick sees what that of one that they cannot tick
  does. -/
  guarded : ∀ seen, Guarded.Watched behave (.new host) moves seen ↔ seen = sight behave host moves
  /-- It sees the same if every tick is struck from what callbacks do. -/
  still : ∀ seen, Guarded.Watched (fun callback => (behave callback).still id) (.new host) moves seen ↔
    seen = sight behave host moves
  /-- Time moves by one in a tick by the owner from a running clock to a running one, and in nothing
  else. -/
  advances : ∀ m, (after behave host moves).Advances behave m ∧
      ((after behave host moves).move behave m).stage.clock.now =
        (after behave host moves).stage.clock.now + 1 ∨
    ¬ (after behave host moves).Advances behave m ∧
      ((after behave host moves).move behave m).stage.clock.now =
        (after behave host moves).stage.clock.now
  /-- At every moment of a tick, whichever callback is at work, it is the time at its start. -/
  stands : ∀ e rest t, (after behave host moves).stage.AtWork behave e rest t →
    t.clock.now = (after behave host moves).stage.clock.now

/-- The same of a session, whatever commands its actions are made of. -/
structure Session.Timed (failing : List Nat) (ops : List Operation) : Prop where
  /-- The owner of a clock that actions may tick sees what that of one that they cannot tick does. -/
  guarded : ∀ seen, Guarded.Watched behave (.new { sink := { failing } })
      (ops.flatMap Operation.moves) seen ↔
    seen = Course.sight behave { sink := { failing } } (ops.flatMap Operation.moves)
  /-- It sees the same if every tick is struck from every action, at any depth. -/
  still : ∀ seen, Guarded.Watched behave (.new { sink := { failing } })
      ((ops.map Operation.still).flatMap Operation.moves) seen ↔
    seen = Course.sight behave { sink := { failing } } (ops.flatMap Operation.moves)
  /-- After every operation the answer, the clock, the log and the sink are the same. -/
  told : told (State.start failing) (ops.map Operation.still) = told (State.start failing) ops
  /-- What a tick adds to the log and to the sink is of its time. -/
  wrote : (reached failing ops).host.Wrote (reached failing ops).clock.now
    ((reached failing ops).tick behave).2.host

/-- Only the owner moves time.  Whether callbacks ask for ticks makes no difference, and during a
tick the time is one and the same for all of them. -/
theorem only_owner_moves_time {κ σ : Type} (behave : κ → Script κ σ) (host : σ)
    (moves : List (Move κ)) (failing : List Nat) (ops : List Session.Operation) :
    Course.Timed behave host moves ∧ Session.Timed failing ops := by
  have hid : moves.map (Move.map id) = moves := by
    rw [List.map_congr_left fun m _ => m.map_id]
    exact List.map_id moves
  have hsight : Course.sight (fun callback => (behave callback).still id) host moves =
      Course.sight behave host moves := by
    have hmapped := @Course.sight_still _ _ _ id behave (fun callback => (behave callback).still id)
      (fun _ => rfl) host moves
    rw [hid] at hmapped
    exact hmapped
  have hsession : Course.sight Session.behave { sink := { failing } }
      ((ops.map Session.Operation.still).flatMap Session.Operation.moves) =
      Course.sight Session.behave { sink := { failing } } (ops.flatMap Session.Operation.moves) := by
    rw [Session.moves_still]
    exact Course.sight_still Session.behave_still _ _
  constructor
  · exact {
      guarded := fun seen => Guarded.watched_new_iff
      still := fun seen => by rw [← hsight]; exact Guarded.watched_new_iff
      advances := (Course.after behave host moves).now_move behave
      stands := fun e rest t h => h.now }
  · exact {
      guarded := fun seen => Guarded.watched_new_iff
      still := fun seen => by rw [← hsession]; exact Guarded.watched_new_iff
      told := Session.told_still ops (.start failing)
      wrote := Session.wrote_tick _ }

/-- An action that asks for two ticks. -/
example : (Session.reached [] [.schedule 0 [.tick, .tick, .log "nested", .schedule 0 [.log "deferred"]],
    .schedule 0 [.log "sibling"], .run none, .tick 2]).host.log =
    [⟨0, .text "nested"⟩, ⟨0, .text "sibling"⟩, ⟨1, .text "deferred"⟩] := rfl

end Stave
