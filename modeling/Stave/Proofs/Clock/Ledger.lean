import Mathlib.Algebra.Order.Group.Multiset
import Mathlib.Tactic.Abel
import Stave.Proofs.Clock.Overdue

/-!
# The ledger of a clock

Every callback that was ever queued is in one place: still in the queue, dispatched, or dropped.
Only a termination drops any, be it the owner's or a callback's.  Each step balances, so a whole
course does, whatever the callbacks do to the clock and wherever a failure cuts a tick short.

    script.Balanced, dispatch.Balanced, (r.move behave m).Balanced
    what was requested in a course is queued, dispatched or dropped,
      under the indices 0, 1, 2, ...                                      (nothing_lost)
-/

namespace Stave

variable {κ σ : Type} {behave : κ → Script κ σ}

/-! ## What a termination drops -/

/-- The callbacks that a call throws away. -/
def Clock.dropped (c : Clock κ) : Call κ → List (Entry κ)
  | .terminate => c.queue
  | _ => []

/-- What a script throws away when it runs on a stage. -/
def Script.dropped : Script κ σ → Stage κ σ → List (Entry κ)
  | .done, _ => []
  | .fail _, _ => []
  | .look next, s => (next s.clock.view).dropped s
  | .act effect next, s =>
    match effect s.host with
    | (none, host) => next.dropped { s with host }
    | (some _, _) => []
  | .call c next, s =>
    match s.clock.answer .callback c with
    | .ok (clock, queued) => s.clock.dropped c ++ (next (.ok queued)).dropped { s with clock }
    | .error e => (next (.error e)).dropped s
  | .tick next, s => next.dropped s

/-- What the callbacks of a dispatch throw away. -/
def Stage.dropped (behave : κ → Script κ σ) (n : Nat) (s : Stage κ σ) : List (Entry κ) :=
  (s.performances behave n).flatMap fun (e, s) => (behave e.callback).dropped s

namespace Course

/-- What is thrown away in one move. -/
def dropped (behave : κ → Script κ σ) (r : Course κ σ) : Move κ → List (Entry κ)
  | .terminate => r.stage.clock.queue
  | .tick =>
    if r.stage.clock.state = .running then r.stage.dropped behave r.stage.clock.due.length else []
  | _ => []

/-- What is thrown away in some moves. -/
def drops (behave : κ → Script κ σ) : Course κ σ → List (Move κ) → List (Entry κ)
  | _, [] => []
  | r, m :: moves => r.dropped behave m ++ (r.move behave m).drops behave moves

end Course

/-! ## Balances -/

/-- What was there and what was asked for is now there, or was taken, or was dropped. -/
def Balanced (before : List (Entry κ)) (asked : List (Request κ))
    (now taken dropped : List (Entry κ)) : Prop :=
  (before ++ asked.map Request.entry).Perm (now ++ taken ++ dropped)

namespace Balanced

variable {a b c t t' d d' : List (Entry κ)} {r r' : List (Request κ)}

theorem refl (a : List (Entry κ)) : Balanced a [] a [] [] := by
  unfold Balanced
  simp

theorem trans (h : Balanced a r b t d) (h' : Balanced b r' c t' d') :
    Balanced a (r ++ r') c (t ++ t') (d ++ d') := by
  unfold Balanced at *
  rw [← Multiset.coe_eq_coe] at *
  simp only [← Multiset.coe_add, List.map_append] at *
  calc (a : Multiset (Entry κ)) + (↑(r.map Request.entry) + ↑(r'.map Request.entry))
      = a + r.map Request.entry + r'.map Request.entry := (add_assoc _ _ _).symm
    _ = b + r'.map Request.entry + (t + d) := by rw [h]; abel
    _ = c + (t + t') + (d + d') := by rw [h']; abel

/-- The callback at the head of a queue is taken. -/
theorem pop (e : Entry κ) (rest : List (Entry κ)) : Balanced (e :: rest) [] rest [e] [] := by
  unfold Balanced
  simpa using (List.perm_append_singleton e rest).symm

end Balanced

/-! ## Steps -/

/-- A call drops what it does not keep. -/
theorem Clock.balanced_answer {c c' : Clock κ} {caller : Caller} {call : Call κ} {queued : Nat}
    (h : c.answer caller call = .ok (c', queued)) :
    Balanced c.queue (c.asked caller call) c'.queue [] (c.dropped call) := by
  by_cases hcall : call = .terminate
  · subst hcall
    cases h
    have hnone : c.asked caller .terminate = [] := by
      unfold Clock.asked
      split <;> rfl
    rw [hnone]
    unfold Balanced
    simp [Clock.dropped]
  · have hkept : c.dropped call = [] := by
      cases call with
      | terminate => exact absurd rfl hcall
      | _ => rfl
    rw [hkept]
    rcases Clock.answer_cases h with ⟨hend, -⟩ | ⟨hs, rfl, -⟩ | ⟨hs, -, hc⟩
    · exact absurd hend hcall
    · rw [Clock.asked, if_pos hs]
      exact Balanced.refl _
    · have hqueue : c'.queue.Perm (c.queue ++ (c.asked caller call).map Request.entry) := by
        rw [Clock.asked, if_neg hs]
        rcases hc with rfl | rfl
        · exact (c.enqueueAll_spec caller call.wanted).2.2.2
        · exact (Clock.enqueueAll_spec { c with state := .running } caller call.wanted).2.2.2
      unfold Balanced
      simpa using hqueue.symm

theorem Script.balanced_exec (script : Script κ σ) (s : Stage κ σ) :
    Balanced s.clock.queue (script.requests s) (script.exec s).2.clock.queue [] (script.dropped s) := by
  induction script generalizing s with
  | done => exact Balanced.refl _
  | fail message => exact Balanced.refl _
  | look next ih => exact ih s.clock.view s
  | act effect next ih =>
    rw [exec, requests, dropped]
    rcases effect s.host with ⟨_ | message, host⟩
    · exact ih { s with host }
    · exact Balanced.refl _
  | call c next ih =>
    rw [exec, requests, dropped]
    cases ha : s.clock.answer .callback c with
    | error e => exact ih (.error e) s
    | ok p =>
      obtain ⟨clock, queued⟩ := p
      exact (Clock.balanced_answer ha).trans (ih (.ok queued) { s with clock })
  | tick next ih => exact ih s

theorem Stage.balanced_dispatch (behave : κ → Script κ σ) (n : Nat) (s : Stage κ σ) :
    Balanced s.clock.queue (s.requests behave n) (s.dispatch behave n).2.clock.queue
      (s.dispatch behave n).1.dispatched (s.dropped behave n) := by
  have hfirst : ∀ {s s' : Stage κ σ} {e : Entry κ} {rest : List (Entry κ)} {failure : Option String},
      s.clock.queue = e :: rest → (behave e.callback).exec (s.pop rest) = (failure, s') →
      Balanced s.clock.queue ((behave e.callback).requests (s.pop rest)) s'.clock.queue [e]
        ((behave e.callback).dropped (s.pop rest)) := by
    intro s s' e rest failure hq hx
    have hexec := (behave e.callback).balanced_exec (s.pop rest)
    rw [hx] at hexec
    rw [hq]
    exact (Balanced.pop e rest).trans hexec
  induction n, s using Stage.dispatch_induct behave with
  | idle n s _ hd hp =>
    rw [hd, requests, dropped, hp]
    exact Balanced.refl _
  | fails n s e rest source s' hq he hx hd hp =>
    rw [hd, requests, dropped, hp, List.flatMap_singleton, List.flatMap_singleton]
    exact hfirst hq hx
  | ends n s e rest s' hq he hx hs' hd hp =>
    rw [hd, requests, dropped, hp, List.flatMap_singleton, List.flatMap_singleton]
    exact hfirst hq hx
  | next n s e rest s' hq he hx hs' hd hp ih =>
    rw [hd, requests, dropped, hp, List.flatMap_cons, List.flatMap_cons]
    exact (hfirst hq hx).trans ih

theorem Stage.queue_advance (s : Stage κ σ) : s.advance.clock.queue = s.clock.queue := by
  unfold advance
  split <;> rfl

/-! ## Numbering -/

/-- Indices are given out one by one. -/
def Numbered (c : Clock κ) (log : Chronicle κ) : Prop :=
  log.requests.map Request.index = List.range c.nextIndex

theorem Numbered.stable {caller : Caller} : Stable caller (Numbered (κ := κ)) where
  enqueue := by
    intro c log offset callback _ h
    show (log.requests ++ [_]).map Request.index = List.range (c.nextIndex + 1)
    rw [List.map_append, h, List.range_succ]
    rfl
  start _ h := h
  terminate h := h

/-! ## Termination -/

theorem Stable.terminated {caller : Caller} :
    Stable caller fun (c : Clock κ) _ => c.state = .terminated where
  enqueue _ _ hc h := absurd h hc
  start hc h := absurd h hc
  terminate _ := rfl

/-- A script that leaves its clock going has dropped nothing. -/
theorem Script.dropped_eq_nil (script : Script κ σ) {s : Stage κ σ}
    (h : (script.exec s).2.clock.state ≠ .terminated) : script.dropped s = [] := by
  induction script generalizing s with
  | done => rfl
  | fail message => rfl
  | look next ih => exact ih s.clock.view h
  | act effect next ih =>
    rw [exec] at h
    rw [dropped]
    rcases hx : effect s.host with ⟨_ | message, host⟩
    · rw [hx] at h
      exact ih h
    · rfl
  | call c next ih =>
    rw [exec] at h
    rw [dropped]
    cases ha : s.clock.answer .callback c with
    | error e =>
      rw [ha] at h
      exact ih (.error e) h
    | ok p =>
      obtain ⟨clock, queued⟩ := p
      rw [ha] at h
      have hcall : s.clock.dropped c = [] := by
        cases c with
        | terminate =>
          cases ha
          exact absurd (Stable.terminated.exec_clock (next (.ok 0)) rfl) h
        | _ => rfl
      show s.clock.dropped c ++ (next (.ok queued)).dropped { s with clock } = []
      rw [hcall, ih (.ok queued) h]
      rfl
  | tick next ih => exact ih h

theorem Stage.dropped_eq_nil (behave : κ → Script κ σ) (n : Nat) {s : Stage κ σ}
    (h : (s.dispatch behave n).2.clock.state ≠ .terminated) : s.dropped behave n = [] := by
  have hfirst : ∀ {s s' : Stage κ σ} {e : Entry κ} {rest : List (Entry κ)} {failure : Option String},
      (behave e.callback).exec (s.pop rest) = (failure, s') → s'.clock.state ≠ .terminated →
      (behave e.callback).dropped (s.pop rest) = [] := by
    intro s s' e rest failure hx hs'
    refine (behave e.callback).dropped_eq_nil ?_
    rw [hx]
    exact hs'
  induction n, s using Stage.dispatch_induct behave with
  | idle n s _ hd hp =>
    rw [dropped, hp]
    rfl
  | fails n s e rest source s' hq he hx hd hp =>
    rw [hd] at h
    rw [dropped, hp, List.flatMap_singleton]
    exact hfirst hx h
  | ends n s e rest s' hq he hx hs' hd hp =>
    rw [hd] at h
    exact absurd hs' h
  | next n s e rest s' hq he hx hs' hd hp ih =>
    rw [hd] at h
    rw [dropped, hp, List.flatMap_cons]
    show (behave e.callback).dropped (s.pop rest) ++ s'.dropped behave n = []
    rw [hfirst hx hs', ih h]
    rfl

/-! ## Failures -/

/-- The callback that failed is among those dispatched. -/
theorem Stage.dispatched_of_error (behave : κ → Script κ σ) (n : Nat) {s : Stage κ σ}
    {f : DispatchError} (h : (s.dispatch behave n).1.error = some f) :
    f.tick = s.clock.now ∧ ∃ e ∈ (s.dispatch behave n).1.dispatched, e.index = f.index := by
  have hnow : ∀ {s s' : Stage κ σ} {e : Entry κ} {rest : List (Entry κ)} {failure : Option String},
      (behave e.callback).exec (s.pop rest) = (failure, s') → s'.clock.now = s.clock.now := by
    intro s s' e rest failure hx
    have hexec := (Stable.now s.clock.now).exec_clock (behave e.callback) (s := s.pop rest) rfl
    rwa [hx] at hexec
  induction n, s using Stage.dispatch_induct behave with
  | idle n s _ hd hp =>
    rw [hd] at h
    cases h
  | fails n s e rest source s' hq he hx hd hp =>
    rw [hd] at h ⊢
    cases h
    exact ⟨hnow hx, e, List.mem_cons_self, rfl⟩
  | ends n s e rest s' hq he hx hs' hd hp =>
    rw [hd] at h
    cases h
  | next n s e rest s' hq he hx hs' hd hp ih =>
    rw [hd] at h ⊢
    obtain ⟨htick, f', hf', hindex⟩ := ih h
    exact ⟨htick.trans (hnow hx), f', List.mem_cons_of_mem e hf', hindex⟩

namespace Course

variable {r : Course κ σ} {d : List (Entry κ)}

/-- Each failure is of a callback dispatched on its tick. -/
def Failed (r : Course κ σ) : Prop :=
  ∀ f ∈ r.log.failures, ∃ d ∈ r.log.dispatched, d.entry.index = f.index ∧ d.tick = f.tick

theorem Failed.ask (h : Failed r) (call : Call κ) : Failed (r.ask call) := by
  unfold Course.ask
  split <;> exact h

theorem Failed.tick (h : Failed r) : Failed (r.tick behave) := by
  by_cases hrun : r.stage.clock.state = .running
  · rw [tick_of_running hrun]
    intro f hf
    rcases List.mem_append.1 hf with hf | hf
    · obtain ⟨d, hd, hindex⟩ := h f hf
      exact ⟨d, List.mem_append_left _ hd, hindex⟩
    · obtain ⟨htick, e, he, hindex⟩ :=
        Stage.dispatched_of_error behave _ (Option.mem_toList.1 hf)
      exact ⟨⟨r.stage.clock.now, e⟩, List.mem_append_right _ (List.mem_map_of_mem he), hindex,
        htick.symm⟩
  · rw [tick_of_not_running hrun]
    exact h

/-! ## Moves -/

/-- What was requested in a course is queued, dispatched or dropped. -/
def Ledger (r : Course κ σ) (dropped : List (Entry κ)) : Prop :=
  Balanced [] r.log.requests r.stage.clock.queue (r.log.dispatched.map Dispatch.entry) dropped

theorem Ledger.ask (h : Ledger r d) (call : Call κ) :
    Ledger (r.ask call) (d ++ r.stage.clock.dropped call) := by
  unfold Course.ask Stage.call
  cases ha : r.stage.clock.answer .owner call with
  | error e =>
    have hkept : r.stage.clock.dropped call = [] := by
      cases call with
      | terminate => cases ha
      | _ => rfl
    rw [hkept, List.append_nil]
    exact h
  | ok p =>
    have hnext := h.trans (Clock.balanced_answer ha)
    rw [List.append_nil] at hnext
    exact hnext

theorem Ledger.move (h : Ledger r d) (m : Move κ) :
    Ledger (r.move behave m) (d ++ r.dropped behave m) := by
  have hsame : Ledger r (d ++ []) := by rwa [List.append_nil]
  cases m with
  | run first => exact h.ask (.run first)
  | schedule offset callback => exact h.ask (.schedule offset callback)
  | bind resolution cue events =>
    rw [Course.move]
    split
    · exact h.ask (.scheduleAll _)
    · exact hsame
  | terminate => exact h.ask .terminate
  | tick =>
    show Ledger (r.tick behave) (d ++ r.dropped behave .tick)
    rw [Course.dropped]
    by_cases hrun : r.stage.clock.state = .running
    · have hnext := h.trans (r.stage.balanced_dispatch behave r.stage.clock.due.length)
      rw [if_pos hrun, tick_of_running hrun]
      unfold Ledger
      rw [Stage.queue_advance]
      show Balanced _ _ _ (Chronicle.dispatched (Chronicle.take _ _ _) |>.map Dispatch.entry) _
      rw [Chronicle.map_entry_take]
      exact hnext
    · rw [if_neg hrun, tick_of_not_running hrun]
      exact hsame

theorem Ledger.moves (h : Ledger r d) (moves : List (Move κ)) :
    Ledger (moves.foldl (Course.move behave) r) (d ++ r.drops behave moves) := by
  induction moves generalizing r d with
  | nil =>
    rw [drops, List.append_nil]
    exact h
  | cons m moves ih =>
    rw [drops, ← List.append_assoc]
    exact ih (h.move m)

theorem terminated_move (h : r.stage.clock.state = .terminated) (m : Move κ) :
    (r.move behave m).stage.clock.state = .terminated := by
  have hask : ∀ call, (r.ask call).stage.clock.state = .terminated :=
    fun call => Stable.terminated.ask call h
  cases m with
  | run first => exact hask _
  | schedule offset callback => exact hask _
  | bind resolution cue events =>
    rw [move]
    split
    · exact hask _
    · exact h
  | terminate => exact hask .terminate
  | tick =>
    show (r.tick behave).stage.clock.state = .terminated
    rw [tick_of_not_running (by rw [h]; decide)]
    exact h

/-- A move that leaves the clock going has dropped nothing. -/
theorem dropped_eq_nil {m : Move κ} (h : (r.move behave m).stage.clock.state ≠ .terminated) :
    r.dropped behave m = [] := by
  cases m with
  | terminate => exact absurd rfl h
  | tick =>
    rw [dropped]
    split
    · next hrun =>
      refine Stage.dropped_eq_nil behave _ ?_
      intro hend
      apply h
      show (r.tick behave).stage.clock.state = .terminated
      rw [tick_of_running hrun, Stage.advance, if_neg (by rw [hend]; decide)]
      exact hend
    · rfl
  | _ => rfl

theorem drops_eq_nil (moves : List (Move κ))
    (h : (moves.foldl (move behave) r).stage.clock.state ≠ .terminated) :
    r.drops behave moves = [] := by
  induction moves generalizing r with
  | nil => rfl
  | cons m moves ih =>
    have hgoing : (r.move behave m).stage.clock.state ≠ .terminated := by
      intro hend
      have hstill := List.foldlRecOn moves (move behave)
        (motive := fun r : Course κ σ => r.stage.clock.state = .terminated) hend
        fun _ hr m _ => terminated_move hr m
      exact h hstill
    rw [drops, dropped_eq_nil hgoing, ih h]
    rfl

/-! ## Courses -/

theorem numbered_after (behave : κ → Script κ σ) (host : σ) (moves : List (Move κ)) :
    Numbered (after behave host moves).stage.clock (after behave host moves).log := by
  refine after_induct (P := fun r => Numbered r.stage.clock r.log) rfl ?_ ?_ moves
  · intro r call h
    exact Numbered.stable.ask call h
  · intro r h
    by_cases hrun : r.stage.clock.state = .running
    · obtain ⟨-, -, hdone⟩ := Numbered.stable.dispatch (fun h _ _ => h) behave
        r.stage.clock.due.length r.log hrun h
      rw [tick_of_running hrun]
      unfold Stage.advance
      split <;> exact hdone
    · rw [tick_of_not_running hrun]
      exact h

theorem failed_after (behave : κ → Script κ σ) (host : σ) (moves : List (Move κ)) :
    Failed (after behave host moves) :=
  after_induct (P := Failed) nofun (fun _ call h => h.ask call) (fun _ h => h.tick) moves

theorem ledger_after (behave : κ → Script κ σ) (host : σ) (moves : List (Move κ)) :
    Ledger (after behave host moves) (drops behave ⟨⟨{}, host⟩, {}⟩ moves) :=
  Ledger.moves (r := ⟨⟨{}, host⟩, {}⟩) (Balanced.refl []) moves

/-- What is dispatched once is not dispatched again. -/
theorem filter_dispatched {ds : List (Dispatch κ)} {d : Dispatch κ}
    (h : ds.Pairwise (·.entry.index ≠ ·.entry.index)) (hd : d ∈ ds) :
    ds.filter (·.entry.index = d.entry.index) = [d] := by
  induction ds with
  | nil => cases hd
  | cons a ds ih =>
    obtain ⟨ha, hds⟩ := List.pairwise_cons.1 h
    rcases List.mem_cons.1 hd with rfl | hd
    · have hrest : ds.filter (·.entry.index = d.entry.index) = [] := by
        rw [List.filter_eq_nil_iff]
        intro b hb hsame
        exact ha b hb (of_decide_eq_true hsame).symm
      rw [List.filter_cons_of_pos (by simp), hrest]
    · rw [List.filter_cons_of_neg (by simpa using ha d hd), ih hds hd]

/-- No callback is lost and none runs twice.  Those requested have the indices 0, 1, 2, ...; each is
queued, dispatched or dropped by a termination, in one of these places and there once.  One that
failed has been dispatched on the tick of its failure and at no other time.  One that is overdue, as
the failure of another leaves it, is dispatched by the ticks that follow unless the clock ends: as
many as there are callbacks before it, and one more, are enough. -/
theorem nothing_lost (behave : κ → Script κ σ) (host : σ) (moves : List (Move κ)) :
    (after behave host moves).log.requests.map Request.index =
      List.range (after behave host moves).stage.clock.nextIndex ∧
    ((after behave host moves).log.requests.map Request.entry).Perm
      ((after behave host moves).stage.clock.queue ++
        (after behave host moves).log.dispatched.map Dispatch.entry ++
        drops behave ⟨⟨{}, host⟩, {}⟩ moves) ∧
    (((after behave host moves).stage.clock.queue ++
        (after behave host moves).log.dispatched.map Dispatch.entry ++
        drops behave ⟨⟨{}, host⟩, {}⟩ moves).map Entry.index).Nodup ∧
    ((after behave host moves).stage.clock.state ≠ .terminated →
      drops behave ⟨⟨{}, host⟩, {}⟩ moves = []) ∧
    (∀ f ∈ (after behave host moves).log.failures,
      ((after behave host moves).log.dispatched.filter (·.entry.index = f.index)).map Dispatch.tick =
        [f.tick]) ∧
    (∀ e ∈ (after behave host moves).stage.clock.queue,
      (after behave host moves).stage.clock.state = .running →
      e.due ≤ (after behave host moves).stage.clock.now → ∀ more : List (Move κ),
      (after behave host moves).stage.clock.countBefore e < more.countP Move.isTick →
        (after behave host (moves ++ more)).stage.clock.state = .terminated ∨
          e ∈ (after behave host (moves ++ more)).log.dispatched.map Dispatch.entry) := by
  have hnumbered := numbered_after behave host moves
  have hledger := ledger_after behave host moves
  have hnodup : (((after behave host moves).stage.clock.queue ++
      (after behave host moves).log.dispatched.map Dispatch.entry ++
      drops behave ⟨⟨{}, host⟩, {}⟩ moves).map Entry.index).Nodup := by
    rw [← (hledger.map Entry.index).nodup_iff, List.nil_append, List.map_map]
    show (List.map Request.index _).Nodup
    rw [hnumbered]
    exact List.nodup_range
  refine ⟨hnumbered, hledger, hnodup, drops_eq_nil moves, ?_, ?_⟩
  · intro f hf
    obtain ⟨d, hd, hindex, htick⟩ := failed_after behave host moves f hf
    have honce : (after behave host moves).log.dispatched.Pairwise
        (·.entry.index ≠ ·.entry.index) := by
      rw [List.map_append, List.map_append, List.map_map] at hnodup
      exact List.pairwise_map.1 hnodup.of_append_left.of_append_right
    rw [← hindex, filter_dispatched honce hd, ← htick]
    rfl
  · intro e he hrun hdue more hticks
    exact dispatched_of_overdue host moves hrun he hdue hticks

/-- Of two callbacks due together, the first fails and the second waits for the next tick. -/
def oneFails : Bool → Script Bool Unit
  | true => .fail "no"
  | false => .done

theorem nothing_lost_past_failure :
    (after oneFails () [.schedule 0 true, .schedule 0 false, .run none, .tick]).log.failures =
      [⟨0, 0, "no"⟩] ∧
    ⟨0, 1, false⟩ ∈ (after oneFails ()
      ([.schedule 0 true, .schedule 0 false, .run none, .tick] ++ [.tick])).log.dispatched.map
        Dispatch.entry := by
  obtain ⟨-, -, -, -, -, hwaits⟩ :=
    nothing_lost oneFails () [.schedule 0 true, .schedule 0 false, .run none, .tick]
  have hqueued : ⟨0, 1, false⟩ ∈ (after oneFails ()
      [.schedule 0 true, .schedule 0 false, .run none, .tick]).stage.clock.queue :=
    List.mem_cons_self
  refine ⟨rfl, ?_⟩
  exact (hwaits _ hqueued rfl (by decide) [.tick] (by decide)).resolve_left (by decide)

end Course

end Stave
