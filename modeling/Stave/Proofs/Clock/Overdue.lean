import Stave.Proofs.Clock.Order

/-!
# Overdue callbacks

A failure leaves callbacks in the queue past their tick.  None of them waits for ever: every tick
takes at least the first of them, and whatever is queued meanwhile comes after all of them.  So one
with `n` callbacks before it is dispatched within `n + 1` ticks, even if each of these ticks is cut
short by a failure.

    e ∈ c.queue → e.due ≤ c.now → fewer callbacks before e than ticks to come →
      e is dispatched by the end of them, or the clock has ended         (dispatched_of_overdue)
-/

namespace Stave

variable {κ σ : Type} {caller : Caller} {c : Clock κ} {log : Chronicle κ} {e : Entry κ}

/-- The number of callbacks that a queue dispatches before an entry. -/
def Clock.countBefore (c : Clock κ) (e : Entry κ) : Nat := (c.queue.filter (·.Before e)).length

/-- An entry that is due, in a queue in order. -/
structure Clock.Overdue (c : Clock κ) (e : Entry κ) : Prop where
  sound : c.Sound
  queued : e ∈ c.queue
  due : e.due ≤ c.now

/-- The clock has ended, or the entry has been dispatched, or it is due and will be among the first
of a total of dispatches. -/
def Served (e : Entry κ) (total : Nat) (c : Clock κ) (log : Chronicle κ) : Prop :=
  c.state = .terminated ∨ e ∈ log.dispatched.map Dispatch.entry ∨
    c.Overdue e ∧ log.dispatched.length + c.countBefore e < total

/-! ## Calls -/

/-- What is queued after an overdue entry is dispatched after it. -/
theorem Clock.Overdue.enqueue (h : c.Overdue e) (caller : Caller) (offset : Nat) (callback : κ) :
    (c.enqueue caller offset callback).Overdue e ∧
      (c.enqueue caller offset callback).countBefore e = c.countBefore e := by
  have hindex : e.index < c.nextIndex := h.sound.numbered e h.queued
  have hlate : ¬ (Entry.mk (c.now + max offset caller.lead) c.nextIndex callback).Before e := by
    have hdue := h.due
    unfold Entry.Before
    dsimp only
    omega
  refine ⟨⟨h.sound.enqueue caller offset callback, Entry.mem_insert.2 (.inr h.queued), h.due⟩, ?_⟩
  exact congrArg List.length (Entry.filter_insert_of_neg (by simpa using hlate) c.queue)

theorem Served.stable (e : Entry κ) (total : Nat) : Stable caller (Served e total) where
  enqueue := by
    rintro c log offset callback hc (hend | hdone | ⟨hdue, hcount⟩)
    · exact absurd hend hc
    · exact .inr (.inl hdone)
    · obtain ⟨hdue', hsame⟩ := hdue.enqueue caller offset callback
      refine .inr (.inr ⟨hdue', ?_⟩)
      rw [hsame]
      exact hcount
  start := by
    rintro c log hc (hend | hdone | ⟨hdue, hcount⟩)
    · exact absurd hend hc
    · exact .inr (.inl hdone)
    · exact .inr (.inr ⟨⟨⟨hdue.sound.sorted, hdue.sound.numbered⟩, hdue.queued, hdue.due⟩, hcount⟩)
  terminate _ := .inl rfl

/-! ## Dispatch -/

/-- The first callback of a queue is the entry itself or one of those before it. -/
theorem Served.pop {total : Nat} {f : Entry κ} {rest : List (Entry κ)} (h : Served e total c log)
    (hq : c.queue = f :: rest) (hf : f.due ≤ c.now) :
    Served e total { c with queue := rest } (log.take c.now [f]) := by
  rcases h with hend | hdone | ⟨hdue, hcount⟩
  · exact .inl hend
  · refine .inr (.inl ?_)
    rw [Chronicle.map_entry_take]
    exact List.mem_append_left _ hdone
  · rcases List.mem_cons.1 (hq ▸ hdue.queued) with rfl | hmem
    · refine .inr (.inl ?_)
      rw [Chronicle.map_entry_take]
      exact List.mem_append_right _ List.mem_cons_self
    · have hbefore : f.Before e := (List.pairwise_cons.1 (hq ▸ hdue.sound.sorted)).1 e hmem
      refine .inr (.inr ⟨⟨hdue.sound.pop hq, hmem, hdue.due⟩, ?_⟩)
      rw [Clock.countBefore, hq, List.filter_cons_of_pos (by simpa using hbefore),
        List.length_cons] at hcount
      show (log.dispatched ++ [Dispatch.mk c.now f]).length + (rest.filter (·.Before e)).length < total
      rw [List.length_append, List.length_singleton]
      omega

theorem Stage.dispatched_ne_nil (behave : κ → Script κ σ) (n : Nat) {s : Stage κ σ} {f : Entry κ}
    {rest : List (Entry κ)} (hq : s.clock.queue = f :: rest) (hf : f.due ≤ s.clock.now) :
    (s.dispatch behave (n + 1)).1.dispatched ≠ [] := by
  rw [dispatch, hq]
  dsimp only
  rw [if_pos hf]
  split
  · exact List.cons_ne_nil _ _
  · split
    · exact List.cons_ne_nil _ _
    · exact List.cons_ne_nil _ _

/-- A tick dispatches something if anything is due. -/
theorem Clock.Overdue.dispatched_ne_nil {s : Stage κ σ} (h : s.clock.Overdue e)
    (behave : κ → Script κ σ) :
    (s.dispatch behave s.clock.due.length).1.dispatched ≠ [] := by
  cases hq : s.clock.queue with
  | nil => exact absurd (hq ▸ h.queued) List.not_mem_nil
  | cons f rest =>
    have hf : f.due ≤ s.clock.now := by
      have hdue := h.due
      rcases List.mem_cons.1 (hq ▸ h.queued) with rfl | hmem
      · exact hdue
      · have := ((List.pairwise_cons.1 (hq ▸ h.sound.sorted)).1 e hmem).due_le
        omega
    have hlen : s.clock.due.length = (rest.takeWhile (·.due ≤ s.clock.now)).length + 1 := by
      rw [Clock.due, hq, List.takeWhile_cons_of_pos (by simpa using hf), List.length_cons]
    rw [hlen]
    exact Stage.dispatched_ne_nil behave _ hq hf

/-! ## Ticks -/

theorem Served.advance {total : Nat} {s : Stage κ σ} (h : Served e total s.clock log)
    (hs : s.clock.state ≠ .stopped) : Served e total s.advance.clock log := by
  rcases Stage.advance_cases hs with ⟨hrun, ha⟩ | ⟨-, ha⟩
  · rw [ha]
    rcases h with hend | hdone | ⟨hdue, hcount⟩
    · exact .inl hend
    · exact .inr (.inl hdone)
    · refine .inr (.inr ⟨⟨⟨hdue.sound.sorted, hdue.sound.numbered⟩, hdue.queued, ?_⟩, hcount⟩)
      exact Nat.le_succ_of_le hdue.due
  · rw [ha]
    exact h

def Move.isTick : Move κ → Bool
  | .tick => true
  | _ => false

namespace Course

variable {behave : κ → Script κ σ} {r : Course κ σ} {ticks : Nat}

/-- So many ticks are enough to dispatch an entry, unless the clock ends before. -/
structure Within (e : Entry κ) (ticks : Nat) (r : Course κ σ) : Prop where
  started : r.stage.clock.state ≠ .stopped
  served : Served e (r.log.dispatched.length + ticks) r.stage.clock r.log

theorem Within.ask (h : Within e ticks r) (call : Call κ) : Within e ticks (r.ask call) := by
  refine ⟨Stable.started.ask call h.started, ?_⟩
  rw [dispatched_ask]
  exact (Served.stable e _).ask call h.served

theorem Within.tick (h : Within e ticks r) : Within e (ticks - 1) (r.tick behave) := by
  by_cases hrun : r.stage.clock.state = .running
  · rw [tick_of_running hrun]
    generalize hlog : ((r.log.ask (r.stage.requests behave r.stage.clock.due.length)).take
      r.stage.clock.now (r.stage.dispatch behave r.stage.clock.due.length).1.dispatched) = log
    have hlen : log.dispatched.length = r.log.dispatched.length +
        (r.stage.dispatch behave r.stage.clock.due.length).1.dispatched.length := by
      rw [← hlog]
      show (r.log.dispatched ++ _).length = _
      rw [List.length_append, List.length_map]
    have hserved : Served e (log.dispatched.length + (ticks - 1)) r.stage.clock r.log := by
      rcases h.served with hend | hdone | ⟨hdue, hcount⟩
      · exact .inl hend
      · exact .inr (.inl hdone)
      · have hsome := List.length_pos_iff.2 (hdue.dispatched_ne_nil behave)
        exact .inr (.inr ⟨hdue, by omega⟩)
    obtain ⟨-, hstarted, hdone⟩ := (Served.stable e _).dispatch Served.pop behave
      r.stage.clock.due.length r.log hrun hserved
    rw [hlog] at hdone
    have hstill : (r.stage.dispatch behave r.stage.clock.due.length).2.advance.clock.state ≠
        .stopped := by
      rcases Stage.advance_cases hstarted with ⟨-, ha⟩ | ⟨-, ha⟩ <;> rw [ha] <;> exact hstarted
    exact ⟨hstill, Served.advance hdone hstarted⟩
  · rw [tick_of_not_running hrun]
    have hend : r.stage.clock.state = .terminated := by
      cases hs : r.stage.clock.state with
      | stopped => exact absurd hs h.started
      | running => exact absurd hs hrun
      | terminated => rfl
    exact ⟨h.started, .inl hend⟩

theorem Within.moves (h : Within e ticks r) (behave : κ → Script κ σ) (moves : List (Move κ)) :
    Within e (ticks - moves.countP Move.isTick) (moves.foldl (move behave) r) := by
  induction moves generalizing ticks r with
  | nil => exact h
  | cons m moves ih =>
    have hstep : Within e (ticks - [m].countP Move.isTick) (r.move behave m) := by
      cases m with
      | run first => exact h.ask _
      | schedule offset callback => exact h.ask _
      | bind resolution cue events =>
        rw [move]
        split
        · exact h.ask _
        · exact h
      | terminate => exact h.ask .terminate
      | tick => exact h.tick
    have hcount : ([m] ++ moves).countP Move.isTick =
        [m].countP Move.isTick + moves.countP Move.isTick := List.countP_append
    rw [← List.singleton_append, hcount, ← Nat.sub_sub]
    exact ih hstep

/-- Whatever a failure left in the queue, and whatever is due, is dispatched within as many ticks as
there are callbacks before it and one more, unless the clock ends. -/
theorem dispatched_of_overdue (host : σ) (moves : List (Move κ)) {more : List (Move κ)}
    (hrun : (after behave host moves).stage.clock.state = .running)
    (hqueued : e ∈ (after behave host moves).stage.clock.queue)
    (hdue : e.due ≤ (after behave host moves).stage.clock.now)
    (hticks : (after behave host moves).stage.clock.countBefore e < more.countP Move.isTick) :
    (after behave host (moves ++ more)).stage.clock.state = .terminated ∨
      e ∈ (after behave host (moves ++ more)).log.dispatched.map Dispatch.entry := by
  have hsound := (orderly_after behave host moves).sound
  have hstart : Within e (more.countP Move.isTick) (after behave host moves) :=
    ⟨by rw [hrun]; decide, .inr (.inr ⟨⟨hsound, hqueued, hdue⟩, Nat.add_lt_add_left hticks _⟩)⟩
  have hserved := (hstart.moves behave more).served
  rw [← after_append, Nat.sub_self, Nat.add_zero] at hserved
  rcases hserved with hend | hdone | ⟨-, hcount⟩
  · exact .inl hend
  · exact .inr hdone
  · omega

end Course

end Stave
