import Stave.Proofs.Clock.Stable

/-!
# The order of dispatch

Over a whole course, across ticks and failures, callbacks are dispatched in the order of due tick
and index, none before its tick.  A failure may delay what is left of its tick; without one, each
callback runs exactly when it was asked for.

    (after behave host moves).log.dispatched is ordered, and each of its
      callbacks was requested for that tick or an earlier one             (dispatch_order)
-/

namespace Stave

variable {κ σ : Type} {caller : Caller} {c : Clock κ} {log : Chronicle κ}

/-! ## Invariants -/

/-- A queue in order, with indices that have been given out. -/
structure Clock.Sound (c : Clock κ) : Prop where
  sorted : c.queue.Pairwise Entry.Before
  numbered : ∀ e ∈ c.queue, e.index < c.nextIndex

/-- Everything dispatched comes before everything queued, and before all that can still be queued:
that is due no earlier than the caller's lead allows. -/
structure Orderly (caller : Caller) (c : Clock κ) (log : Chronicle κ) : Prop where
  sound : c.Sound
  ordered : (log.dispatched.map Dispatch.entry).Pairwise Entry.Before
  ahead : ∀ d ∈ log.dispatched, ∀ e ∈ c.queue, d.entry.Before e
  past : c.state ≠ .terminated → ∀ d ∈ log.dispatched, d.entry.due < c.now + caller.lead
  late : ∀ d ∈ log.dispatched, d.entry.due ≤ d.tick
  queued : ∀ e ∈ c.queue, e ∈ log.requests.map Request.entry
  known : ∀ d ∈ log.dispatched, d.entry ∈ log.requests.map Request.entry

/-- Nothing is overdue, and nothing has been. -/
structure Punctual (c : Clock κ) (log : Chronicle κ) : Prop where
  early : ∀ e ∈ c.queue, c.now ≤ e.due
  exact : ∀ d ∈ log.dispatched, d.tick = d.entry.due

/-! ## Calls -/

theorem Clock.Sound.enqueue (h : c.Sound) (caller : Caller) (offset : Nat) (callback : κ) :
    (c.enqueue caller offset callback).Sound where
  sorted := Entry.pairwise_insert h.sorted h.numbered
  numbered := by
    intro e he
    show e.index < c.nextIndex + 1
    rcases Entry.mem_insert.1 he with rfl | he
    · exact Nat.lt_succ_self _
    · exact Nat.lt_succ_of_lt (h.numbered e he)

theorem Clock.Sound.enqueueAll (h : c.Sound) (caller : Caller) (callbacks : List (Nat × κ)) :
    (c.enqueueAll caller callbacks).Sound := by
  induction callbacks generalizing c with
  | nil => exact h
  | cons p ps ih => exact ih (h.enqueue caller p.1 p.2)

/-- A tick looks no further than what is due. -/
theorem Clock.Sound.dueCount_le (h : c.Sound) :
    (c.queue.filter (·.due ≤ c.now)).length ≤ c.due.length :=
  Nat.le_of_eq (congrArg List.length (Entry.takeWhile_due h.sorted)).symm

/-- What a batch adds to a sound queue stands there under its own indices, in order. -/
theorem Clock.Sound.filter_enqueueAll (h : c.Sound) (caller : Caller)
    (callbacks : List (Nat × κ)) :
    ((c.enqueueAll caller callbacks).queue.filter fun e =>
      c.nextIndex ≤ e.index ∧ e.index < c.nextIndex + callbacks.length).Perm
        ((c.requests caller callbacks).map Request.entry) := by
  obtain ⟨-, -, -, hperm⟩ := c.enqueueAll_spec caller callbacks
  refine (hperm.filter _).trans ?_
  have hold : c.queue.filter (fun e =>
      c.nextIndex ≤ e.index ∧ e.index < c.nextIndex + callbacks.length) = [] := by
    rw [List.filter_eq_nil_iff]
    intro e he hin
    have hlt : e.index < c.nextIndex := h.numbered e he
    simp only [decide_eq_true_eq] at hin
    omega
  have hnew : ((c.requests caller callbacks).map Request.entry).filter (fun e =>
      c.nextIndex ≤ e.index ∧ e.index < c.nextIndex + callbacks.length) =
        (c.requests caller callbacks).map Request.entry := by
    rw [List.filter_eq_self]
    intro e he
    have hmem := List.mem_map_of_mem (f := Entry.index) he
    rw [Clock.map_index_requests, List.mem_range'_1] at hmem
    exact decide_eq_true hmem
  rw [List.filter_append, hold, hnew, List.nil_append]

theorem Clock.Sound.stable : Stable caller fun (c : Clock κ) _ => c.Sound where
  enqueue offset callback _ h := h.enqueue _ offset callback
  start _ h := ⟨h.sorted, h.numbered⟩
  terminate _ := ⟨List.Pairwise.nil, nofun⟩

theorem Orderly.enqueue (h : Orderly caller c log) (hc : c.state ≠ .terminated) (offset : Nat)
    (callback : κ) : Orderly caller (c.enqueue caller offset callback)
      (log.ask [⟨caller, c.now, offset, c.nextIndex, callback⟩]) where
  sound := h.sound.enqueue caller offset callback
  ordered := h.ordered
  ahead := by
    intro d hd e he
    rcases Entry.mem_insert.1 he with rfl | he
    · -- the lead of a callback puts what it queues after all that its tick still dispatches
      have hdue : d.entry.due < c.now + caller.lead := h.past hc d hd
      apply Entry.before_of_due_lt
      show d.entry.due < c.now + max offset caller.lead
      omega
    · exact h.ahead d hd e he
  past := h.past
  late := h.late
  queued := by
    intro e he
    rw [Clock.enqueue_eq] at he
    show e ∈ (log.requests ++ [_]).map Request.entry
    rw [List.map_append, List.mem_append]
    rcases Entry.mem_insert.1 he with rfl | he
    · exact .inr List.mem_cons_self
    · exact .inl (h.queued e he)
  known := by
    intro d hd
    show d.entry ∈ (log.requests ++ [_]).map Request.entry
    rw [List.map_append, List.mem_append]
    exact .inl (h.known d hd)

theorem Orderly.stable : Stable caller (Orderly (κ := κ) caller) where
  enqueue offset callback hc h := h.enqueue hc offset callback
  start hc h := { h with sound := ⟨h.sound.sorted, h.sound.numbered⟩, past := fun _ => h.past hc }
  terminate h :=
    { h with
      sound := ⟨List.Pairwise.nil, nofun⟩
      ahead := nofun
      past := fun hs => absurd rfl hs
      queued := nofun }

theorem Punctual.stable : Stable caller (Punctual (κ := κ)) where
  enqueue := by
    intro c log offset callback _ h
    constructor
    · intro e he
      show c.now ≤ e.due
      rcases Entry.mem_insert.1 he with rfl | he
      · exact Nat.le_add_right _ _
      · exact h.early e he
    · exact h.exact
  start _ h := ⟨h.early, h.exact⟩
  terminate h := ⟨nofun, h.exact⟩

/-! ## Dispatch -/

section

variable {e : Entry κ} {rest : List (Entry κ)}

theorem Clock.Sound.pop (h : c.Sound) (hq : c.queue = e :: rest) :
    Clock.Sound { c with queue := rest } where
  sorted := (List.pairwise_cons.1 (hq ▸ h.sorted)).2
  numbered := by
    intro f hf
    apply h.numbered
    rw [hq]
    exact List.mem_cons_of_mem e hf

theorem Orderly.pop (h : Orderly .callback c log) (hq : c.queue = e :: rest) (he : e.due ≤ c.now) :
    Orderly .callback { c with queue := rest } (log.take c.now [e]) := by
  have hmem : e ∈ c.queue := hq ▸ List.mem_cons_self
  have hrest : ∀ f ∈ rest, e.Before f := (List.pairwise_cons.1 (hq ▸ h.sound.sorted)).1
  have hsub : ∀ f ∈ rest, f ∈ c.queue := fun f hf => hq ▸ List.mem_cons_of_mem e hf
  have htaken : ∀ d ∈ (log.take c.now [e]).dispatched, d ∈ log.dispatched ∨ d = ⟨c.now, e⟩ := by
    intro d hd
    rcases List.mem_append.1 hd with hd | hd
    · exact .inl hd
    · exact .inr (List.mem_singleton.1 hd)
  constructor
  · exact h.sound.pop hq
  · show ((log.dispatched ++ [Dispatch.mk c.now e]).map Dispatch.entry).Pairwise Entry.Before
    rw [List.map_append, List.pairwise_append]
    refine ⟨h.ordered, List.pairwise_singleton _ _, ?_⟩
    intro a ha b hb
    obtain ⟨d, hd, rfl⟩ := List.mem_map.1 ha
    rw [List.mem_singleton.1 hb]
    exact h.ahead d hd e hmem
  · intro d hd f hf
    rcases htaken d hd with hd | rfl
    · exact h.ahead d hd f (hsub f hf)
    · exact hrest f hf
  · intro hs d hd
    rcases htaken d hd with hd | rfl
    · exact h.past hs d hd
    · exact Nat.lt_succ_of_le he
  · intro d hd
    rcases htaken d hd with hd | rfl
    · exact h.late d hd
    · exact he
  · intro f hf
    exact h.queued f (hsub f hf)
  · intro d hd
    rcases htaken d hd with hd | rfl
    · exact h.known d hd
    · exact h.queued e hmem

theorem Punctual.pop (h : Punctual c log) (hq : c.queue = e :: rest) (he : e.due ≤ c.now) :
    Punctual { c with queue := rest } (log.take c.now [e]) := by
  constructor
  · intro f hf
    apply h.early
    rw [hq]
    exact List.mem_cons_of_mem e hf
  · intro d hd
    rcases List.mem_append.1 hd with hd | hd
    · exact h.exact d hd
    · rw [List.mem_singleton.1 hd]
      exact Nat.le_antisymm (h.early e (hq ▸ List.mem_cons_self)) he

end

/-! ## Ticks -/

/-- What a callback queues is not due in its own tick. -/
theorem dueCount_stable (t n : Nat) : Stable .callback fun (c : Clock κ) _ =>
    c.now = t ∧ (c.queue.filter (·.due ≤ t)).length ≤ n where
  enqueue := by
    rintro c log offset callback _ ⟨ht, hn⟩
    refine ⟨ht, ?_⟩
    have hlate : ¬ c.now + max offset 1 ≤ t := by omega
    show ((Entry.insert ⟨c.now + max offset 1, c.nextIndex, callback⟩ c.queue).filter _).length ≤ n
    rw [((Entry.insert_perm _ c.queue).filter _).length_eq, List.filter_cons_of_neg (by simpa using hlate)]
    exact hn
  start _ h := h
  terminate h := ⟨h.1, Nat.zero_le n⟩

/-- Taking one due callback and running it leaves one less that is due. -/
theorem Stage.dueCount_exec (behave : κ → Script κ σ) {n : Nat} {s s' : Stage κ σ} {e : Entry κ}
    {rest : List (Entry κ)} {failure : Option String} (hq : s.clock.queue = e :: rest)
    (he : e.due ≤ s.clock.now) (hx : (behave e.callback).exec (s.pop rest) = (failure, s'))
    (hn : (s.clock.queue.filter (·.due ≤ s.clock.now)).length ≤ n + 1) :
    s'.clock.now = s.clock.now ∧ (s'.clock.queue.filter (·.due ≤ s'.clock.now)).length ≤ n := by
  have hrest : (rest.filter (·.due ≤ s.clock.now)).length ≤ n := by
    rw [hq, List.filter_cons_of_pos (by simpa using he), List.length_cons] at hn
    omega
  obtain ⟨hnow, hcount⟩ := (dueCount_stable s.clock.now n).exec_clock (behave e.callback)
    (s := s.pop rest) ⟨rfl, hrest⟩
  rw [hx] at hnow hcount
  exact ⟨hnow, by rw [hnow]; exact hcount⟩

/-- A dispatch that nothing cuts short leaves nothing due. -/
theorem Stage.dispatch_clears (behave : κ → Script κ σ) (n : Nat) {s : Stage κ σ}
    (hs : s.clock.Sound) (hn : (s.clock.queue.filter (·.due ≤ s.clock.now)).length ≤ n)
    (herror : (s.dispatch behave n).1.error = none)
    (hend : (s.dispatch behave n).2.clock.state ≠ .terminated) :
    ∀ e ∈ (s.dispatch behave n).2.clock.queue, s.clock.now < e.due := by
  induction n, s using Stage.dispatch_induct behave with
  | idle n s hidle hd hp =>
    rw [hd]
    exact Entry.lt_due_of_idle hs.sorted hn hidle
  | fails n s e rest source s' hq he hx hd hp =>
    rw [hd] at herror
    cases herror
  | ends n s e rest s' hq he hx hs' hd hp =>
    rw [hd] at hend
    exact absurd hs' hend
  | next n s e rest s' hq he hx hs' hd hp ih =>
    obtain ⟨hnow, hn'⟩ := dueCount_exec behave hq he hx hn
    have hsound := Clock.Sound.stable.exec_clock (behave e.callback) (s := s.pop rest) (hs.pop hq)
    rw [hx] at hsound
    rw [hd] at herror hend ⊢
    rw [← hnow]
    exact ih hsound hn' herror hend

theorem Stage.advance_cases {s : Stage κ σ} (h : s.clock.state ≠ .stopped) :
    s.clock.state = .running ∧ s.advance = { s with clock := { s.clock with now := s.clock.now + 1 } } ∨
    s.clock.state = .terminated ∧ s.advance = s := by
  unfold advance
  cases hs : s.clock.state with
  | stopped => exact absurd hs h
  | running => exact .inl ⟨rfl, if_pos rfl⟩
  | terminated => exact .inr ⟨rfl, if_neg nofun⟩

/-- Time moves past everything that has been dispatched. -/
theorem Orderly.advance {s : Stage κ σ} (h : Orderly .callback s.clock log)
    (hs : s.clock.state ≠ .stopped) : Orderly .owner s.advance.clock log := by
  rcases Stage.advance_cases hs with ⟨hrun, ha⟩ | ⟨hend, ha⟩
  · rw [ha]
    exact { h with sound := ⟨h.sound.sorted, h.sound.numbered⟩ }
  · rw [ha]
    exact { h with past := fun hne => absurd hend hne }

theorem Punctual.advance {s : Stage κ σ} (h : Punctual s.clock log)
    (hs : s.clock.state ≠ .stopped)
    (hclear : s.clock.state ≠ .terminated → ∀ e ∈ s.clock.queue, s.clock.now < e.due) :
    Punctual s.advance.clock log := by
  rcases Stage.advance_cases hs with ⟨hrun, ha⟩ | ⟨-, ha⟩
  · rw [ha]
    exact ⟨hclear (by rw [hrun]; decide), h.exact⟩
  · rw [ha]
    exact h

namespace Course

variable {behave : κ → Script κ σ} {r : Course κ σ}

/-- All that a tick does, when the clock is running. -/
theorem tick_of_running (hrun : r.stage.clock.state = .running) :
    r.tick behave =
      ⟨(r.stage.dispatch behave r.stage.clock.due.length).2.advance,
        ((r.log.ask (r.stage.requests behave r.stage.clock.due.length)).take r.stage.clock.now
          (r.stage.dispatch behave r.stage.clock.due.length).1.dispatched).fail
          (r.stage.dispatch behave r.stage.clock.due.length).1.error.toList⟩ := by
  rw [tick, if_pos hrun, Stage.tick, if_pos hrun]

theorem tick_of_not_running (h : r.stage.clock.state ≠ .running) : r.tick behave = r := if_neg h

theorem orderly_tick (h : Orderly .owner r.stage.clock r.log) :
    Orderly .owner (r.tick behave).stage.clock (r.tick behave).log := by
  by_cases hrun : r.stage.clock.state = .running
  · -- from here to the end of the tick the callbacks are the callers, who may not queue so near
    have hstart : Orderly .callback r.stage.clock r.log :=
      { h with past := fun hs d hd => Nat.lt_succ_of_lt (h.past hs d hd) }
    obtain ⟨-, hstarted, hdone⟩ :=
      Orderly.stable.dispatch Orderly.pop behave r.stage.clock.due.length r.log hrun hstart
    rw [tick_of_running hrun]
    have := hdone.advance hstarted
    exact { this with }
  · rw [tick_of_not_running hrun]
    exact h

theorem punctual_tick (hs : r.stage.clock.Sound) (h : Punctual r.stage.clock r.log)
    (hfail : (r.tick behave).log.failures = []) :
    Punctual (r.tick behave).stage.clock (r.tick behave).log := by
  by_cases hrun : r.stage.clock.state = .running
  · obtain ⟨hnow, hstarted, hdone⟩ :=
      Punctual.stable.dispatch Punctual.pop behave r.stage.clock.due.length r.log hrun h
    rw [tick_of_running hrun] at hfail ⊢
    have herror : (r.stage.dispatch behave r.stage.clock.due.length).1.error = none := by
      rw [← Option.toList_eq_nil_iff]
      exact (List.append_eq_nil_iff.1 hfail).2
    have hclear := Stage.dispatch_clears behave _ hs hs.dueCount_le herror
    rw [← hnow] at hclear
    have := hdone.advance hstarted hclear
    exact ⟨this.early, this.exact⟩
  · rw [tick_of_not_running hrun]
    exact h

theorem dispatched_ask (r : Course κ σ) (call : Call κ) :
    (r.ask call).log.dispatched = r.log.dispatched := by
  unfold ask
  split <;> rfl

theorem failures_ask (r : Course κ σ) (call : Call κ) : (r.ask call).log.failures = r.log.failures := by
  unfold ask
  split <;> rfl

theorem failures_of_tick (h : (r.tick behave).log.failures = []) : r.log.failures = [] := by
  by_cases hrun : r.stage.clock.state = .running
  · rw [tick_of_running hrun] at h
    exact (List.append_eq_nil_iff.1 h).1
  · rwa [tick_of_not_running hrun] at h

theorem orderly_after (behave : κ → Script κ σ) (host : σ) (moves : List (Move κ)) :
    Orderly .owner (after behave host moves).stage.clock (after behave host moves).log := by
  refine after_induct (P := fun r => Orderly .owner r.stage.clock r.log) ?_ ?_ ?_ moves
  · exact ⟨⟨List.Pairwise.nil, nofun⟩, List.Pairwise.nil, nofun, nofun, nofun, nofun, nofun⟩
  · intro r call h
    exact Orderly.stable.ask call h
  · intro r h
    exact orderly_tick h

theorem punctual_after (behave : κ → Script κ σ) (host : σ) (moves : List (Move κ))
    (h : (after behave host moves).log.failures = []) :
    Punctual (after behave host moves).stage.clock (after behave host moves).log := by
  refine (after_induct (P := fun r => Orderly .owner r.stage.clock r.log ∧
    (r.log.failures = [] → Punctual r.stage.clock r.log)) ?_ ?_ ?_ moves).2 h
  · exact ⟨orderly_after behave host [], fun _ => ⟨nofun, nofun⟩⟩
  · intro r call hr
    refine ⟨Orderly.stable.ask call hr.1, ?_⟩
    intro h
    rw [failures_ask] at h
    exact Punctual.stable.ask call (hr.2 h)
  · intro r hr
    refine ⟨orderly_tick hr.1, ?_⟩
    intro h
    exact punctual_tick hr.1.sound (hr.2 (failures_of_tick h)) h

/-- Callbacks are dispatched in the order of due tick and index and never early, each as it was
requested; if none fails, each is dispatched on the very tick it was requested for. -/
theorem dispatch_order (behave : κ → Script κ σ) (host : σ) (moves : List (Move κ)) :
    ((after behave host moves).log.dispatched.map Dispatch.entry).Pairwise Entry.Before ∧
    (∀ d ∈ (after behave host moves).log.dispatched,
      d.entry.due ≤ d.tick ∧
        d.entry ∈ (after behave host moves).log.requests.map Request.entry) ∧
    ((after behave host moves).log.failures = [] →
      ∀ d ∈ (after behave host moves).log.dispatched, d.tick = d.entry.due) := by
  have h := orderly_after behave host moves
  refine ⟨h.ordered, ?_, ?_⟩
  · intro d hd
    exact ⟨h.late d hd, h.known d hd⟩
  · intro hfail
    exact (punctual_after behave host moves hfail).exact

end Course

end Stave
