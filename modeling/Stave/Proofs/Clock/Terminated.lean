import Mathlib.Logic.Relation
import Stave.Proofs.Clock.Order

/-!
# The end of a clock

A terminated clock has nothing queued, and nothing that it is asked changes it any more: whoever
asks, between ticks or in the middle of one.  A script that goes on after it has ended its clock
goes on in vain, and the tick that it runs in ends with it.

    c.state = .terminated, c.queue = [] → every answer of c is c, nothing queued    (Clock.inert)
    script.Step, R of the clock is stable → R still holds                           (Script.Step.keeps)
    a callback leaves the clock terminated → it is the last of its dispatch         (dispatch_ended)
    at every moment of a course, a terminated clock is inert, and
      nothing happens to it from there                                              (terminated_absorbs)
-/

namespace Stave

open Relation

variable {κ σ : Type} {behave : κ → Script κ σ}

/-! ## A clock that nothing changes -/

/-- Nothing is queued, nothing can be, and time stands still.  What was refused still is. -/
structure Clock.Inert (c : Clock κ) : Prop where
  empty : c.queue = []
  run : ∀ caller first, c.answer caller (.run first) = .ok (c, 0)
  schedule : ∀ caller offset callback, c.answer caller (.schedule offset callback) =
    if offset < 0 then .error (.negativeOffset offset) else .ok (c, 0)
  scheduleAll : ∀ caller callbacks, c.answer caller (.scheduleAll callbacks) = .ok (c, 0)
  bind : ∀ (r : Resolution) (cue : Cue → κ) events caller,
    r.bind cue events caller c = (r.cues cue events).map fun _ => (c, 0)
  terminate : ∀ caller, c.answer caller .terminate = .ok (c, 0)
  tick : ∀ (σ : Type) (behave : κ → Script κ σ) (host : σ),
    (Stage.mk c host).tick behave = ({}, ⟨c, host⟩)

theorem Clock.inert {c : Clock κ} (hstate : c.state = .terminated) (hqueue : c.queue = []) :
    c.Inert where
  empty := hqueue
  run _ _ := if_pos hstate
  schedule caller offset callback := by
    rw [answer, if_pos hstate]
  scheduleAll _ _ := if_pos hstate
  bind r cue events caller := by
    rw [Resolution.bind]
    cases r.cues cue events with
    | error e => rfl
    | ok callbacks => exact if_pos hstate
  terminate caller := by
    obtain ⟨now, state, queue, nextIndex⟩ := c
    cases hstate
    cases hqueue
    rfl
  tick σ behave host := by
    refine if_neg ?_
    show ¬ c.state = .running
    rw [hstate]
    rintro ⟨⟩

theorem Clock.Inert.answer {c c' : Clock κ} (h : c.Inert) {caller : Caller} {call : Call κ}
    {queued : Nat} (ha : c.answer caller call = .ok (c', queued)) : c' = c := by
  cases call with
  | run first =>
    rw [h.run] at ha
    cases ha
    rfl
  | schedule offset callback =>
    rw [h.schedule] at ha
    split at ha <;> cases ha
    rfl
  | scheduleAll callbacks =>
    rw [h.scheduleAll] at ha
    cases ha
    rfl
  | terminate =>
    rw [h.terminate] at ha
    cases ha
    rfl

/-- A script does nothing to such a clock. -/
theorem Clock.Inert.exec (script : Script κ σ) {s : Stage κ σ} (h : s.clock.Inert) :
    (script.exec s).2.clock = s.clock := by
  induction script generalizing s with
  | done => rfl
  | fail message => rfl
  | look next ih => exact ih s.clock.view h
  | act effect next ih =>
    rw [Script.exec]
    rcases effect s.host with ⟨_ | message, host⟩
    · exact ih h
    · rfl
  | call c next ih =>
    rw [Script.exec]
    cases ha : s.clock.answer .callback c with
    | error e => exact ih (.error e) h
    | ok p =>
      obtain ⟨clock, queued⟩ := p
      obtain rfl := h.answer ha
      exact ih (.ok queued) h
  | tick next ih => exact ih h

/-- The queue of a terminated clock is empty. -/
theorem Stable.emptied (caller : Caller) :
    Stable caller fun (c : Clock κ) _ => c.state = .terminated → c.queue = [] where
  enqueue _ _ hc _ hend := absurd hend hc
  start _ _ hend := by cases hend
  terminate _ _ := rfl

/-! ## A script at work -/

/-- What a script does first, if it is not at its end. -/
inductive Script.Step : Script κ σ × Stage κ σ → Script κ σ × Stage κ σ → Prop
  | look {next : View → Script κ σ} {s : Stage κ σ} : Step (.look next, s) (next s.clock.view, s)
  | act {effect : σ → Option String × σ} {next : Script κ σ} {s : Stage κ σ} {host : σ}
      (h : effect s.host = (none, host)) : Step (.act effect next, s) (next, { s with host })
  | call {c : Call κ} {next : Except TimingError Nat → Script κ σ} {s : Stage κ σ} {clock : Clock κ}
      {queued : Nat} (h : s.clock.answer .callback c = .ok (clock, queued)) :
      Step (.call c next, s) (next (.ok queued), { s with clock })
  | refused {c : Call κ} {next : Except TimingError Nat → Script κ σ} {s : Stage κ σ}
      {e : TimingError} (h : s.clock.answer .callback c = .error e) :
      Step (.call c next, s) (next (.error e), s)
  | tick {next : Script κ σ} {s : Stage κ σ} : Step (.tick next, s) (next, s)

section

variable {p q : Script κ σ × Stage κ σ}

/-- What is left to do leads to the same end. -/
theorem Script.Step.exec (h : Script.Step p q) : p.1.exec p.2 = q.1.exec q.2 := by
  cases h with
  | look => rfl
  | act h =>
    show Script.exec (.act _ _) _ = _
    rw [Script.exec, h]
  | call h =>
    show Script.exec (.call _ _) _ = _
    rw [Script.exec, h]
  | refused h =>
    show Script.exec (.call _ _) _ = _
    rw [Script.exec, h]
  | tick => rfl

theorem Script.Step.keeps {R : Clock κ → Prop} (hR : Stable .callback fun c _ => R c)
    (h : Script.Step p q) (hp : R p.2.clock) : R q.2.clock := by
  cases h with
  | look => exact hp
  | act h => exact hp
  | call h =>
    exact @Stable.answer _ _ _ hR _ _ _ _ {} h hp
  | refused h => exact hp
  | tick => exact hp

theorem exec_of_steps (h : ReflTransGen Script.Step p q) : p.1.exec p.2 = q.1.exec q.2 := by
  induction h with
  | refl => rfl
  | tail _ h ih => exact ih.trans h.exec

theorem keeps_of_steps {R : Clock κ → Prop} (hR : Stable .callback fun c _ => R c)
    (h : ReflTransGen Script.Step p q) (hp : R p.2.clock) : R q.2.clock := by
  induction h with
  | refl => exact hp
  | tail _ h ih => exact h.keeps hR ih

end

/-! ## Ticks -/

namespace Stage

section

variable {s t : Stage κ σ} {e : Entry κ} {n : Nat}

/-- No callback is dispatched on a clock that has ended. -/
theorem running_of_performance (hs : s.clock.state = .running)
    (h : (e, t) ∈ s.performances behave n) :
    t.clock.state = .running ∧ t.clock.now = s.clock.now := by
  induction n, s using dispatch_induct behave with
  | idle n s _ _ hp =>
    rw [hp] at h
    cases h
  | fails n s f rest source s' _ _ _ _ hp =>
    rw [hp, List.mem_singleton] at h
    cases h
    exact ⟨hs, rfl⟩
  | ends n s f rest s' _ _ _ _ _ hp =>
    rw [hp, List.mem_singleton] at h
    cases h
    exact ⟨hs, rfl⟩
  | next n s f rest s' hq he hx hs' _ hp ih =>
    rw [hp] at h
    rcases List.mem_cons.1 h with h | h
    · cases h
      exact ⟨hs, rfl⟩
    · have hexec := ((Stable.now s.clock.now).and Stable.started).exec_clock
        (behave f.callback) (s := s.pop rest) ⟨rfl, by show s.clock.state ≠ _; rw [hs]; nofun⟩
      rw [hx] at hexec
      obtain ⟨hstate, hnow⟩ := ih (Stable.running_of_ne hexec.2 hs') h
      exact ⟨hstate, hnow.trans hexec.1⟩

/-- A callback that leaves the clock terminated is the last of its dispatch, failed or not. -/
theorem dispatch_ended (h : (e, t) ∈ s.performances behave n)
    (hend : ((behave e.callback).exec t).2.clock.state = .terminated) : ∃ before,
    s.dispatch behave n = (⟨before ++ [e], ((behave e.callback).exec t).1.map fun source =>
      ⟨((behave e.callback).exec t).2.clock.now, e.index, source⟩⟩,
      ((behave e.callback).exec t).2) := by
  induction n, s using dispatch_induct behave with
  | idle n s _ _ hp =>
    rw [hp] at h
    cases h
  | fails n s f rest source s' _ _ hx hd hp =>
    rw [hp, List.mem_singleton] at h
    cases h
    refine ⟨[], ?_⟩
    rw [hd, hx]
    rfl
  | ends n s f rest s' _ _ hx _ hd hp =>
    rw [hp, List.mem_singleton] at h
    cases h
    refine ⟨[], ?_⟩
    rw [hd, hx]
    rfl
  | next n s f rest s' hq he hx hs' hd hp ih =>
    rw [hp] at h
    rcases List.mem_cons.1 h with h | h
    · cases h
      rw [hx] at hend
      exact absurd hend hs'
    · obtain ⟨before, hbefore⟩ := ih h
      refine ⟨f :: before, ?_⟩
      rw [hd, hbefore]
      rfl

end

/-- In a tick from a stage a callback is at work: what is left of its script, and the stage by
then. -/
def AtWork (behave : κ → Script κ σ) (s : Stage κ σ) (e : Entry κ) (rest : Script κ σ)
    (t : Stage κ σ) : Prop :=
  s.clock.state = .running ∧ ∃ t₀, (e, t₀) ∈ s.performances behave s.clock.due.length ∧
    ReflTransGen Script.Step (behave e.callback, t₀) (rest, t)

section

variable {s t : Stage κ σ} {e : Entry κ} {rest : Script κ σ}

theorem AtWork.inert (h : s.AtWork behave e rest t) (hend : t.clock.state = .terminated) :
    t.clock.Inert := by
  obtain ⟨hrun, t₀, hmem, hsteps⟩ := h
  obtain ⟨hstate, -⟩ := running_of_performance hrun hmem
  refine Clock.inert hend (keeps_of_steps (Stable.emptied .callback) hsteps (fun h => ?_) hend)
  rw [hstate] at h
  cases h

theorem AtWork.now (h : s.AtWork behave e rest t) : t.clock.now = s.clock.now := by
  obtain ⟨hrun, t₀, hmem, hsteps⟩ := h
  exact keeps_of_steps (Stable.now s.clock.now) hsteps (running_of_performance hrun hmem).2

/-- A tick ends with the callback in which the clock ends. -/
theorem AtWork.tick (h : s.AtWork behave e rest t) (hend : t.clock.state = .terminated) :
    ∃ before, s.tick behave = (⟨before ++ [e], (rest.exec t).1.map fun source =>
      ⟨t.clock.now, e.index, source⟩⟩, (rest.exec t).2) := by
  have hclock := (h.inert hend).exec rest
  obtain ⟨hrun, t₀, hmem, hsteps⟩ := h
  have hexec : (behave e.callback).exec t₀ = rest.exec t := exec_of_steps hsteps
  have hended : ((behave e.callback).exec t₀).2.clock.state = .terminated := by
    rw [hexec, hclock, hend]
  obtain ⟨before, hdispatch⟩ := dispatch_ended hmem hended
  rw [hexec, hclock] at hdispatch
  have hstay : (rest.exec t).2.advance = (rest.exec t).2 := by
    refine if_neg ?_
    rw [hclock, hend]
    nofun
  refine ⟨before, ?_⟩
  rw [Stage.tick, if_pos hrun, hdispatch]
  exact Prod.ext rfl hstay

end

end Stage

/-! ## Courses -/

namespace Course

theorem emptied_tick {r : Course κ σ}
    (h : r.stage.clock.state = .terminated → r.stage.clock.queue = []) :
    (r.tick behave).stage.clock.state = .terminated → (r.tick behave).stage.clock.queue = [] := by
  by_cases hrun : r.stage.clock.state = .running
  · -- a clock from which a callback is taken has not ended
    have hpop : ∀ (c : Clock κ) (e : Entry κ) (rest : List (Entry κ)),
        (c.state = .terminated → c.queue = []) → c.queue = e :: rest →
        c.state = .terminated → rest = [] := by
      intro c e rest hc hq hend
      rw [hc hend] at hq
      cases hq
    obtain ⟨-, hstarted, hempty⟩ := (Stable.emptied .callback).dispatch
      (fun {c _ e rest} hc hq _ => hpop c e rest hc hq) behave r.stage.clock.due.length r.log hrun h
    rw [tick_of_running hrun]
    rcases Stage.advance_cases hstarted with ⟨hrunning, hadvance⟩ | ⟨-, hadvance⟩
    · rw [hadvance]
      intro hend
      rw [show _ = ClockState.terminated from hend] at hrunning
      cases hrunning
    · rw [hadvance]
      exact hempty
  · rw [tick_of_not_running hrun]
    exact h

theorem emptied_after (behave : κ → Script κ σ) (host : σ) (moves : List (Move κ)) :
    (after behave host moves).stage.clock.state = .terminated →
      (after behave host moves).stage.clock.queue = [] :=
  after_induct (P := fun r => r.stage.clock.state = .terminated → r.stage.clock.queue = [])
    (fun _ => rfl) (fun _ call h => (Stable.emptied .owner).ask call h) (fun _ => emptied_tick) moves

theorem ask_of_inert {r : Course κ σ} (h : r.stage.clock.Inert)
    (hend : r.stage.clock.state = .terminated) (call : Call κ) : r.ask call = r := by
  obtain ⟨⟨clock, host⟩, log⟩ := r
  unfold ask Stage.call
  cases ha : clock.answer .owner call with
  | error e => rfl
  | ok p =>
    obtain ⟨clock', queued⟩ := p
    obtain rfl := h.answer ha
    have hasked : clock'.asked .owner call = [] := if_pos hend
    show Course.mk ⟨clock', host⟩ (log.ask (clock'.asked .owner call)) = _
    rw [hasked, Chronicle.ask_nil]

/-- No move of the owner does anything to such a clock, nor to what has happened. -/
theorem move_of_inert {r : Course κ σ} (h : r.stage.clock.Inert)
    (hend : r.stage.clock.state = .terminated) (m : Move κ) : r.move behave m = r := by
  cases m with
  | run first => exact ask_of_inert h hend _
  | schedule offset callback => exact ask_of_inert h hend _
  | bind resolution cue events =>
    rw [move]
    split
    · exact ask_of_inert h hend _
    · rfl
  | terminate => exact ask_of_inert h hend .terminate
  | tick =>
    refine tick_of_not_running ?_
    rw [hend]
    rintro ⟨⟩

/-- The end of a clock is final.  Between moves of the owner, a terminated clock is inert, and
whatever the owner does, neither the clock nor what has happened changes.  In a tick, the clock that
a callback has terminated is inert as well; the rest of the callback does nothing to it, and the
tick dispatches no other, leaves the stage as the callback leaves it, time included, and fails if
the callback does. -/
theorem terminated_absorbs (behave : κ → Script κ σ) (host : σ) (moves : List (Move κ)) :
    ((after behave host moves).stage.clock.state = .terminated →
      (after behave host moves).stage.clock.Inert ∧
      ∀ more, after behave host (moves ++ more) = after behave host moves) ∧
    ∀ (e : Entry κ) (rest : Script κ σ) (t : Stage κ σ),
      (after behave host moves).stage.AtWork behave e rest t → t.clock.state = .terminated →
      t.clock.Inert ∧ (rest.exec t).2.clock = t.clock ∧
      t.clock.now = (after behave host moves).stage.clock.now ∧
      ∃ before, (after behave host moves).stage.tick behave =
        (⟨before ++ [e], (rest.exec t).1.map fun source => ⟨t.clock.now, e.index, source⟩⟩,
          (rest.exec t).2) := by
  constructor
  · intro hend
    have hinert := Clock.inert hend (emptied_after behave host moves hend)
    refine ⟨hinert, fun more => ?_⟩
    rw [after_append]
    refine List.foldlRecOn (motive := fun r => r = after behave host moves) more (move behave)
      rfl ?_
    rintro _ rfl m -
    exact move_of_inert hinert hend m
  · intro e rest t h hend
    have hinert := h.inert hend
    exact ⟨hinert, hinert.exec rest, h.now, h.tick hend⟩

/-- What is left of `true` once it has ended its clock. -/
def tooLate : Script Bool Unit := .call (.schedule 1 false) fun _ => .fail "too late"

def endsClock : Bool → Script Bool Unit
  | true => .call .terminate fun _ => tooLate
  | false => .done

/-- The first callback of a tick ends the clock, goes on to schedule, and fails; the second, due on
the same tick, never runs. -/
theorem terminated_absorbs_in_vain : ∃ t : Stage Bool Unit,
    t.clock.state = .terminated ∧ t.clock.Inert ∧ t.clock.now = 0 ∧
    ∃ before, (after endsClock () [.run (some true), .schedule 0 false]).stage.tick endsClock =
      (⟨before ++ [⟨0, 0, true⟩], some ⟨0, 0, "too late"⟩⟩, t) := by
  have hwork : (after endsClock () [.run (some true), .schedule 0 false]).stage.AtWork endsClock
      ⟨0, 0, true⟩ tooLate ⟨⟨0, .terminated, [], 2⟩, ()⟩ :=
    ⟨rfl, ⟨⟨0, .running, [⟨0, 1, false⟩], 2⟩, ()⟩, List.mem_cons_self, .single (.call rfl)⟩
  obtain ⟨hinert, -, hnow, htick⟩ :=
    (terminated_absorbs endsClock () [.run (some true), .schedule 0 false]).2 _ _ _ hwork rfl
  exact ⟨_, rfl, hinert, hnow, htick⟩

end Course

end Stave
