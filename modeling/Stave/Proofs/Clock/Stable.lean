import Stave.Proofs.Clock.Course

/-!
# What no step can end

What holds throughout a course is proved once for each thing that can happen: a callback is queued,
the clock is started or ended, a callback is taken from the queue.  Nothing is known of the scripts
that callbacks run, except that they change their clock by calls.

    Stable .callback P → P s.clock log →
      P (script.exec s).2.clock (log.ask (script.requests s))             (Stable.exec)
    Stable .callback P → (P outlives the taking of a due callback) →
      P s.clock log → P after a dispatch                                  (Stable.dispatch)
    P r → (P outlives calls) → (P outlives ticks) →
      P (moves.foldl (move behave) r)                                     (Course.moves_induct)
-/

namespace Stave

variable {κ σ : Type}

/-- A property of a clock and its chronicle that no call by a caller can end. -/
structure Stable (caller : Caller) (P : Clock κ → Chronicle κ → Prop) : Prop where
  enqueue : ∀ {c : Clock κ} {log : Chronicle κ} (offset : Nat) (callback : κ),
    c.state ≠ .terminated → P c log →
      P (c.enqueue caller offset callback)
        (log.ask [⟨caller, c.now, offset, c.nextIndex, callback⟩])
  start : ∀ {c : Clock κ} {log : Chronicle κ},
    c.state ≠ .terminated → P c log → P { c with state := .running } log
  terminate : ∀ {c : Clock κ} {log : Chronicle κ},
    P c log → P { c with state := .terminated, queue := [] } log

namespace Stable

variable {caller : Caller} {P Q : Clock κ → Chronicle κ → Prop}

/-! ## Properties of every call -/

theorem and (hP : Stable caller P) (hQ : Stable caller Q) :
    Stable caller fun c log => P c log ∧ Q c log where
  enqueue := by
    intro c log offset callback hc h
    exact ⟨hP.enqueue offset callback hc h.1, hQ.enqueue offset callback hc h.2⟩
  start := by
    intro c log hc h
    exact ⟨hP.start hc h.1, hQ.start hc h.2⟩
  terminate := by
    intro c log h
    exact ⟨hP.terminate h.1, hQ.terminate h.2⟩

/-- No call moves time. -/
theorem now (t : Nat) : Stable caller fun (c : Clock κ) _ => c.now = t where
  enqueue _ _ _ h := h
  start _ h := h
  terminate h := h

theorem started : Stable caller fun (c : Clock κ) _ => c.state ≠ .stopped where
  enqueue _ _ _ h := h
  start _ _ := ClockState.noConfusion
  terminate _ := ClockState.noConfusion

/-! ## From steps to runs -/

theorem enqueueAll (hP : Stable caller P) (callbacks : List (Nat × κ)) {c : Clock κ}
    {log : Chronicle κ} (hc : c.state ≠ .terminated) (h : P c log) :
    P (c.enqueueAll caller callbacks) (log.ask (c.requests caller callbacks)) := by
  induction callbacks generalizing c log with
  | nil =>
    rw [Clock.requests, List.zipIdx_nil, List.map_nil, Chronicle.ask_nil]
    exact h
  | cons p ps ih =>
    obtain ⟨offset, callback⟩ := p
    have hq := ih (c := c.enqueue caller offset callback) hc (hP.enqueue offset callback hc h)
    rw [← Chronicle.ask_append] at hq
    exact hq

theorem answer (hP : Stable caller P) {call : Call κ} {c c' : Clock κ} {queued : Nat}
    {log : Chronicle κ} (ha : c.answer caller call = .ok (c', queued)) (h : P c log) :
    P c' (log.ask (c.asked caller call)) := by
  unfold Clock.asked
  rcases Clock.answer_cases ha with ⟨rfl, rfl, -⟩ | ⟨hs, rfl, -⟩ | ⟨hs, -, rfl | rfl⟩
  · have hnone : (if c.state = .terminated then [] else c.requests caller []) = [] := by
      split <;> rfl
    show P _ (log.ask (if c.state = .terminated then [] else c.requests caller []))
    rw [hnone, Chronicle.ask_nil]
    exact hP.terminate h
  · rw [if_pos hs, Chronicle.ask_nil]
    exact h
  · rw [if_neg hs]
    exact hP.enqueueAll call.wanted hs h
  · rw [if_neg hs]
    exact hP.enqueueAll call.wanted ClockState.noConfusion (hP.start hs h)

/-- Whatever a callback does. -/
theorem exec (hP : Stable .callback P) (script : Script κ σ) {s : Stage κ σ} (log : Chronicle κ)
    (h : P s.clock log) : P (script.exec s).2.clock (log.ask (script.requests s)) := by
  induction script generalizing s log with
  | done => rwa [Script.requests, Chronicle.ask_nil]
  | fail message => rwa [Script.requests, Chronicle.ask_nil]
  | look next ih => exact ih s.clock.view log h
  | act effect next ih =>
    rw [Script.exec, Script.requests]
    rcases effect s.host with ⟨_ | message, host⟩
    · exact ih log h
    · rwa [Chronicle.ask_nil]
  | call c next ih =>
    rw [Script.exec, Script.requests]
    cases ha : s.clock.answer .callback c with
    | error e => exact ih (.error e) log h
    | ok p =>
      obtain ⟨clock, queued⟩ := p
      have hn := ih (.ok queued) (s := { s with clock }) _ (hP.answer ha h)
      rw [← Chronicle.ask_append] at hn
      exact hn
  | tick next ih => exact ih log h

/-- The same for a property of the clock alone. -/
theorem exec_clock {R : Clock κ → Prop} (hR : Stable .callback fun c _ => R c)
    (script : Script κ σ) {s : Stage κ σ} (h : R s.clock) : R (script.exec s).2.clock :=
  hR.exec script {} h

theorem running_of_ne {state : ClockState} (h : state ≠ .stopped) (h' : state ≠ .terminated) :
    state = .running := by
  cases state with
  | stopped => exact absurd rfl h
  | running => rfl
  | terminated => exact absurd rfl h'

/-- Whatever the callbacks do that are dispatched together, if `hpop` holds of those taken. -/
theorem dispatch (hP : Stable .callback P)
    (hpop : ∀ {c : Clock κ} {log : Chronicle κ} {e : Entry κ} {rest : List (Entry κ)},
      P c log → c.queue = e :: rest → e.due ≤ c.now →
        P { c with queue := rest } (log.take c.now [e]))
    (behave : κ → Script κ σ) (n : Nat) {s : Stage κ σ} (log : Chronicle κ)
    (hs : s.clock.state = .running) (h : P s.clock log) :
    (s.dispatch behave n).2.clock.now = s.clock.now ∧
      (s.dispatch behave n).2.clock.state ≠ .stopped ∧
      P (s.dispatch behave n).2.clock
        ((log.ask (s.requests behave n)).take s.clock.now (s.dispatch behave n).1.dispatched) := by
  have hstarted : ∀ {state : ClockState}, state = .running → state ≠ .stopped := by
    rintro _ rfl
    nofun
  have hfirst : ∀ {s s' : Stage κ σ} {log : Chronicle κ} {e : Entry κ} {rest : List (Entry κ)}
      {failure : Option String}, s.clock.state = .running → P s.clock log →
      s.clock.queue = e :: rest → e.due ≤ s.clock.now →
      (behave e.callback).exec (s.pop rest) = (failure, s') →
      s'.clock.now = s.clock.now ∧ s'.clock.state ≠ .stopped ∧
        P s'.clock ((log.ask ((behave e.callback).requests (s.pop rest))).take s.clock.now [e]) := by
    intro s s' log e rest failure hs h hq he hx
    have hexec := ((now s.clock.now).and (started.and hP)).exec (behave e.callback)
      (s := s.pop rest) _ ⟨rfl, hstarted hs, hpop h hq he⟩
    rw [hx] at hexec
    exact hexec
  induction n, s using Stage.dispatch_induct behave generalizing log with
  | idle n s _ hd hp =>
    rw [hd, Stage.requests, hp, List.flatMap_nil, Chronicle.ask_nil, Chronicle.take_nil]
    exact ⟨rfl, hstarted hs, h⟩
  | fails n s e rest source s' hq he hx hd hp =>
    rw [hd, Stage.requests, hp, List.flatMap_singleton]
    exact hfirst hs h hq he hx
  | ends n s e rest s' hq he hx hs' hd hp =>
    rw [hd, Stage.requests, hp, List.flatMap_singleton]
    exact hfirst hs h hq he hx
  | next n s e rest s' hq he hx hs' hd hp ih =>
    obtain ⟨hnow, hstopped, h'⟩ := hfirst hs h hq he hx
    have hrest := ih _ (running_of_ne hstopped hs') h'
    rw [hnow, Chronicle.take_ask, ← Chronicle.ask_append, ← Chronicle.take_cons] at hrest
    rw [hd, Stage.requests, hp, List.flatMap_cons]
    exact hrest

/-- A dispatch takes no time, and leaves the clock running or ended. -/
theorem now_dispatch (behave : κ → Script κ σ) (n : Nat) {s : Stage κ σ}
    (hs : s.clock.state = .running) : (s.dispatch behave n).2.clock.now = s.clock.now ∧
      (s.dispatch behave n).2.clock.state ≠ .stopped := by
  obtain ⟨hnow, hstarted, -⟩ := (now s.clock.now).dispatch (fun h _ _ => h) behave n {} hs rfl
  exact ⟨hnow, hstarted⟩

/-- A call by the owner. -/
theorem ask (hP : Stable .owner P) {r : Course κ σ} (call : Call κ) (h : P r.stage.clock r.log) :
    P (r.ask call).stage.clock (r.ask call).log := by
  unfold Course.ask Stage.call
  cases ha : r.stage.clock.answer .owner call with
  | error e => exact h
  | ok p => exact hP.answer ha h

end Stable

namespace Course

variable {behave : κ → Script κ σ} {host : σ} {P : Course κ σ → Prop}

/-- What holds at some moment and outlives calls and ticks holds after any moves. -/
theorem moves_induct {r : Course κ σ} (hr : P r) (hask : ∀ r call, P r → P (r.ask call))
    (htick : ∀ r, P r → P (r.tick behave)) (moves : List (Move κ)) :
    P (moves.foldl (move behave) r) := by
  refine List.foldlRecOn moves (move behave) hr fun r hr m _ => ?_
  cases m with
  | run first => exact hask r _ hr
  | schedule offset callback => exact hask r _ hr
  | bind resolution cue events =>
    rw [move]
    split
    · exact hask r _ hr
    · exact hr
  | terminate => exact hask r .terminate hr
  | tick => exact htick r hr

/-- What holds of a new clock and outlives calls and ticks holds at every moment between moves. -/
theorem after_induct (hnew : P ⟨⟨{}, host⟩, {}⟩) (hask : ∀ r call, P r → P (r.ask call))
    (htick : ∀ r, P r → P (r.tick behave)) (moves : List (Move κ)) : P (after behave host moves) :=
  moves_induct hnew hask htick moves

end Course

end Stave
