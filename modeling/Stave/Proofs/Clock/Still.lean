import Stave.Proofs.Clock.Guard

/-!
# Scripts without ticks

Callbacks are known to a clock by name only.  Rename them, and at the same time strike every tick
from what they do: each is queued under its new name where it was queued under the old one, runs
when it ran, and does to clock and host what it did.

    (script.still f).exec (s.map f) = (script.exec s).map f               (exec_still)
    (s.map f).dispatch behave' n = (s.dispatch behave n).map f            (dispatch_still)
    what an owner sees of the one clock it sees of the other              (sight_still)
    time moves in a tick by the owner from a running clock to a running
      one, and in nothing else                                            (now_move)
-/

namespace Stave

variable {κ κ' σ : Type} {f : κ → κ'}

/-! ## Other names -/

def Clock.map (f : κ → κ') (c : Clock κ) : Clock κ' :=
  ⟨c.now, c.state, c.queue.map (Entry.map f), c.nextIndex⟩

def Stage.map (f : κ → κ') (s : Stage κ σ) : Stage κ' σ := ⟨s.clock.map f, s.host⟩

@[simp] theorem Clock.state_map (c : Clock κ) : (c.map f).state = c.state := rfl

@[simp] theorem Clock.queue_map (c : Clock κ) : (c.map f).queue = c.queue.map (Entry.map f) := rfl

@[simp] theorem Stage.clock_map (s : Stage κ σ) : (s.map f).clock = s.clock.map f := rfl

@[simp] theorem Stage.host_map (s : Stage κ σ) : (s.map f).host = s.host := rfl

def Call.map (f : κ → κ') : Call κ → Call κ'
  | .run first => .run (first.map f)
  | .schedule offset callback => .schedule offset (f callback)
  | .scheduleAll callbacks => .scheduleAll (callbacks.map fun (offset, callback) => (offset, f callback))
  | .terminate => .terminate

def Move.map (f : κ → κ') : Move κ → Move κ'
  | .run first => .run (first.map f)
  | .schedule offset callback => .schedule offset (f callback)
  | .bind r cue events => .bind r (f ∘ cue) events
  | .terminate => .terminate
  | .tick => .tick

/-- A script under other names, with no tick in it. -/
def Script.still (f : κ → κ') : Script κ σ → Script κ' σ
  | .done => .done
  | .fail message => .fail message
  | .look next => .look fun view => (next view).still f
  | .act effect next => .act effect (next.still f)
  | .call c next => .call (c.map f) fun answer => (next answer).still f
  | .tick next => next.still f

/-! ## Calls -/

theorem Entry.map_insert (e : Entry κ) (q : List (Entry κ)) :
    (Entry.insert e q).map (Entry.map f) = Entry.insert (e.map f) (q.map (Entry.map f)) := by
  induction q with
  | nil => rfl
  | cons a q ih =>
    rw [Entry.insert, List.map_cons, Entry.insert]
    by_cases h : e.Before a
    · rw [if_pos h, if_pos (show (e.map f).Before (a.map f) from h)]
      rfl
    · rw [if_neg h, if_neg (show ¬ (e.map f).Before (a.map f) from h), List.map_cons, ih]

namespace Clock

theorem map_enqueue (c : Clock κ) (caller : Caller) (offset : Nat) (callback : κ) :
    (c.enqueue caller offset callback).map f = (c.map f).enqueue caller offset (f callback) := by
  rw [map, enqueue, Entry.map_insert]
  rfl

theorem map_enqueueAll (c : Clock κ) (caller : Caller) (callbacks : List (Nat × κ)) :
    (c.enqueueAll caller callbacks).map f =
      (c.map f).enqueueAll caller (callbacks.map fun (offset, callback) => (offset, f callback)) := by
  induction callbacks generalizing c with
  | nil => rfl
  | cons p ps ih =>
    rw [enqueueAll_cons, ih, map_enqueue]
    rfl

theorem answer_map (c : Clock κ) (caller : Caller) (call : Call κ) :
    (c.map f).answer caller (call.map f) =
      (c.answer caller call).map fun (clock, queued) => (clock.map f, queued) := by
  have hstate := c.state_map (f := f)
  rcases call with (_ | callback) | ⟨offset, callback⟩ | callbacks | _
  · simp only [Call.map, Option.map_none, answer, hstate]
    split <;> rfl
  · simp only [Call.map, Option.map_some, answer, hstate]
    split
    · rfl
    · exact congrArg (fun clock => Except.ok (clock, 1))
        (map_enqueue { c with state := .running } caller 0 callback).symm
  · simp only [Call.map, answer, hstate]
    split
    · rfl
    · split
      · rfl
      · exact congrArg (fun clock => Except.ok (clock, 1)) (map_enqueue c caller _ callback).symm
  · simp only [Call.map, answer, hstate, List.length_map]
    split
    · rfl
    · exact congrArg (fun clock => Except.ok (clock, callbacks.length))
        (map_enqueueAll c caller callbacks).symm
  · rfl

theorem view_map (c : Clock κ) : (c.map f).view = c.view := by
  rw [view, view, map, List.length_map]

theorem length_due_map (c : Clock κ) : (c.map f).due.length = c.due.length := by
  have hdue : (c.map f).due = c.due.map (Entry.map f) := List.takeWhile_map
  rw [hdue, List.length_map]

end Clock

/-! ## Ticks -/

namespace Stage

variable {behave : κ → Script κ σ} {behave' : κ' → Script κ' σ}

/-- A script does what it did. -/
theorem exec_still (script : Script κ σ) (s : Stage κ σ) :
    (script.still f).exec (s.map f) = ((script.exec s).1, (script.exec s).2.map f) := by
  induction script generalizing s with
  | done => rfl
  | fail message => rfl
  | look next ih =>
    rw [Script.still, Script.exec, clock_map, Clock.view_map]
    exact ih s.clock.view s
  | act effect next ih =>
    rw [Script.still, Script.exec, Script.exec, host_map]
    rcases effect s.host with ⟨_ | message, host⟩
    · exact ih { s with host }
    · rfl
  | call c next ih =>
    rw [Script.still, Script.exec, Script.exec, clock_map, Clock.answer_map]
    cases s.clock.answer .callback c with
    | error e => exact ih (.error e) s
    | ok p => exact ih (.ok p.2) { s with clock := p.1 }
  | tick next ih => exact ih s

/-- One turn of a dispatch. -/
theorem dispatch_due {s : Stage κ σ} {e : Entry κ} {rest : List (Entry κ)}
    (hq : s.clock.queue = e :: rest) (he : e.due ≤ s.clock.now) (n : Nat) :
    s.dispatch behave (n + 1) =
      match (behave e.callback).exec (s.pop rest) with
      | (some source, s) => (⟨[e], some ⟨s.clock.now, e.index, source⟩⟩, s)
      | (none, s) =>
        if s.clock.state = .terminated then (⟨[e], none⟩, s)
        else ({ (s.dispatch behave n).1 with dispatched := e :: (s.dispatch behave n).1.dispatched },
          (s.dispatch behave n).2) := by
  rw [dispatch, hq]
  exact if_pos he

/-- A loop runs what it ran. -/
theorem dispatch_still (hstill : ∀ k, behave' (f k) = (behave k).still f) (n : Nat) (s : Stage κ σ) :
    ((s.map f).dispatch behave' n).1.error = (s.dispatch behave n).1.error ∧
      ((s.map f).dispatch behave' n).2 = (s.dispatch behave n).2.map f := by
  induction n generalizing s with
  | zero => exact ⟨rfl, rfl⟩
  | succ n ih =>
    cases hq : s.clock.queue with
    | nil =>
      have hqueue : (s.map f).clock.queue = [] := by
        rw [clock_map, Clock.queue_map, hq, List.map_nil]
      rw [dispatch, dispatch, hq, hqueue]
      exact ⟨rfl, rfl⟩
    | cons e rest =>
      have hqueue : (s.map f).clock.queue = e.map f :: rest.map (Entry.map f) := by
        rw [clock_map, Clock.queue_map, hq, List.map_cons]
      by_cases he : e.due ≤ s.clock.now
      · have hexec : (behave' (e.map f).callback).exec ((s.map f).pop (rest.map (Entry.map f))) = _ :=
          (hstill e.callback).symm ▸ exec_still (f := f) (behave e.callback) (s.pop rest)
        rw [dispatch_due hq he, dispatch_due hqueue he, hexec]
        rcases (behave e.callback).exec (s.pop rest) with ⟨_ | source, s'⟩
        · by_cases hend : s'.clock.state = .terminated
          · simp only [if_pos hend, if_pos (show (s'.map f).clock.state = .terminated from hend)]
            exact ⟨trivial, trivial⟩
          · simp only [if_neg hend, if_neg (show ¬ (s'.map f).clock.state = .terminated from hend)]
            exact ih s'
        · exact ⟨rfl, rfl⟩
      · rw [dispatch, dispatch, hq, hqueue]
        simp only [if_neg he, if_neg (show ¬ (e.map f).due ≤ (s.map f).clock.now from he)]
        exact ⟨trivial, trivial⟩

theorem advance_map (s : Stage κ σ) : (s.map f).advance = s.advance.map f := by
  rw [advance, advance, clock_map, Clock.state_map]
  split <;> rfl

theorem tick_still (hstill : ∀ k, behave' (f k) = (behave k).still f) (s : Stage κ σ) :
    ((s.map f).tick behave').1.error = (s.tick behave).1.error ∧
      ((s.map f).tick behave').2 = (s.tick behave).2.map f := by
  rw [tick, tick, clock_map, Clock.state_map, Clock.length_due_map]
  split
  · obtain ⟨herror, hstage⟩ := dispatch_still hstill s.clock.due.length s
    refine ⟨herror, ?_⟩
    rw [← advance_map, ← hstage]
  · exact ⟨rfl, rfl⟩

end Stage

/-! ## Courses -/

theorem Resolution.cues_map (r : Resolution) (cue : Cue → κ) (events : List Event) :
    r.cues (f ∘ cue) events =
      (r.cues cue events).map (List.map fun (offset, callback) => (offset, f callback)) := by
  rw [cues, cues]
  cases events.mapM r.ticksOf with
  | error e => rfl
  | ok ticks =>
    show Except.ok _ = Except.ok _
    rw [List.map_flatMap]
    rfl

theorem Move.map_id (m : Move κ) : m.map id = m := by
  cases m with
  | run first =>
    rw [map, Option.map_id]
    rfl
  | _ => rfl

theorem Move.call?_map (m : Move κ) :
    (m.map f).call? = m.call?.map fun asked => asked.map (Call.map f) := by
  cases m with
  | bind r cue events =>
    rw [map, call?, call?, Resolution.cues_map]
    cases r.cues cue events <;> rfl
  | _ => rfl

namespace Course

variable {behave : κ → Script κ σ} {behave' : κ' → Script κ' σ} {r : Course κ σ}
  {r' : Course κ' σ}

/-- The owner hears what it heard, and the stage stays the same but for the names. -/
theorem move_still (hstill : ∀ k, behave' (f k) = (behave k).still f)
    (hr : r'.stage = r.stage.map f) (m : Move κ) :
    r'.reply behave' (m.map f) = r.reply behave m ∧
      (r'.move behave' (m.map f)).stage = (r.move behave m).stage.map f := by
  have hcall := m.call?_map (f := f)
  cases hm : m.call? with
  | none =>
    obtain rfl := eq_tick hm
    obtain ⟨herror, hstage⟩ := Stage.tick_still hstill r.stage
    rw [← hr] at herror hstage
    refine ⟨congrArg Reply.ticked herror, ?_⟩
    show (r'.tick behave').stage = (r.tick behave).stage.map f
    rw [stage_tick, stage_tick, hstage]
  | some asked =>
    rw [hm] at hcall
    cases asked with
    | error e =>
      rw [reply_of_unasked hm, reply_of_unasked hcall, move_of_unasked hm, move_of_unasked hcall]
      exact ⟨rfl, hr⟩
    | ok call =>
      have hanswer : (r.stage.map f).clock.answer .owner (call.map f) =
          (r.stage.clock.answer .owner call).map fun (clock, queued) => (clock.map f, queued) :=
        r.stage.clock.answer_map .owner call
      rw [← hr] at hanswer
      rw [move_of_call hm, move_of_call hcall]
      cases ha : r.stage.clock.answer .owner call with
      | error e =>
        rw [ha] at hanswer
        rw [reply_of_error hm ha, reply_of_error hcall hanswer, stage_ask_of_error ha,
          stage_ask_of_error hanswer]
        exact ⟨rfl, hr⟩
      | ok p =>
        rw [ha] at hanswer
        rw [reply_of_ok hm ha, reply_of_ok hcall hanswer, stage_ask_of_ok ha,
          stage_ask_of_ok hanswer, hr]
        exact ⟨rfl, rfl⟩

/-- The owner sees what it saw. -/
theorem glimpses_still (hstill : ∀ k, behave' (f k) = (behave k).still f)
    (hr : r'.stage = r.stage.map f) (moves : List (Move κ)) :
    r'.glimpses behave' (moves.map (Move.map f)) = r.glimpses behave moves := by
  induction moves generalizing r r' with
  | nil => rfl
  | cons m moves ih =>
    obtain ⟨hreply, hstage⟩ := move_still hstill hr m
    have hview : ((r.move behave m).stage.map f).clock.view = (r.move behave m).stage.clock.view :=
      Clock.view_map _
    rw [List.map_cons, glimpses, glimpses, ih hstage, hreply, hstage, hview]
    rfl

theorem sight_still (hstill : ∀ k, behave' (f k) = (behave k).still f) (host : σ)
    (moves : List (Move κ)) :
    sight behave' host (moves.map (Move.map f)) = sight behave host moves :=
  glimpses_still hstill rfl moves

/-! ## Time -/

/-- A tick by the owner that finds the clock running and leaves it running. -/
def Advances (behave : κ → Script κ σ) (r : Course κ σ) (m : Move κ) : Prop :=
  m = .tick ∧ r.stage.clock.state = .running ∧ (r.move behave m).stage.clock.state = .running

theorem now_ask (r : Course κ σ) (call : Call κ) :
    (r.ask call).stage.clock.now = r.stage.clock.now :=
  (Stable.now r.stage.clock.now).ask call rfl

/-- Time moves by one in such a tick, and in nothing else that the owner does. -/
theorem now_move (behave : κ → Script κ σ) (r : Course κ σ) (m : Move κ) :
    r.Advances behave m ∧ (r.move behave m).stage.clock.now = r.stage.clock.now + 1 ∨
      ¬ r.Advances behave m ∧ (r.move behave m).stage.clock.now = r.stage.clock.now := by
  have hother : ∀ {m : Move κ}, m.isTick = false → ¬ r.Advances behave m := by
    rintro m hm ⟨rfl, -⟩
    cases hm
  cases m with
  | run first => exact .inr ⟨hother rfl, now_ask r _⟩
  | schedule offset callback => exact .inr ⟨hother rfl, now_ask r _⟩
  | bind resolution cue events =>
    refine .inr ⟨hother rfl, ?_⟩
    rw [move]
    split
    · exact now_ask r _
    · rfl
  | terminate => exact .inr ⟨hother rfl, now_ask r _⟩
  | tick =>
    by_cases hrun : r.stage.clock.state = .running
    · obtain ⟨hnow, hstarted⟩ := Stable.now_dispatch behave r.stage.clock.due.length hrun
      rw [Advances, move, tick_of_running hrun]
      rcases Stage.advance_cases hstarted with ⟨hgoing, hadvance⟩ | ⟨hend, hadvance⟩
      · rw [hadvance]
        exact .inl ⟨⟨rfl, hrun, hgoing⟩, congrArg (· + 1) hnow⟩
      · rw [hadvance]
        refine .inr ⟨fun h => ?_, hnow⟩
        cases hend.symm.trans h.2.2
    · rw [Advances, move, tick_of_not_running hrun]
      exact .inr ⟨fun h => hrun h.2.1, rfl⟩

end Course

end Stave
