import Stave.Proofs.Clock.Ledger
import Stave.Proofs.Clock.Terminated

/-!
# One tick, end to end

The loop of a tick drains a queue that its own callbacks fill again.  It ends all the same: what a
callback queues is due later, so the loop runs some of the callbacks that were due at its start,
the first ones in order, and stops early only after one that fails or ends the clock.

    s.clock.Sound, no more than n callbacks due →
      s.Loop behave s.clock.now (s.performances behave n) ..              (loop_dispatch)
    two loops from one stage are the same loop                            (Loop.unique)
    a loop runs the first of the callbacks due at its start               (Loop.runs_due)
    a tick of a course runs those, keeps the rest of the queue, adds what
      was asked for meanwhile, and moves time                             (tick_dispatches)
-/

namespace Stave

variable {κ σ : Type} {behave : κ → Script κ σ}

namespace Stage

/-! ## The loop -/

/-- A callback that neither fails nor ends the clock, when it runs on its stage, lets the loop of
its tick go on. -/
def GoesOn (behave : κ → Script κ σ) (run : Entry κ × Stage κ σ) : Prop :=
  ((behave run.1.callback).exec run.2).1 = none ∧
    ((behave run.1.callback).exec run.2).2.clock.state ≠ .terminated

/-- What the owner hears if a callback fails on its stage. -/
def failure? (behave : κ → Script κ σ) (tick : Nat) (run : Entry κ × Stage κ σ) :
    Option DispatchError :=
  ((behave run.1.callback).exec run.2).1.map fun source => ⟨tick, run.1.index, source⟩

/-- The loop of a tick, with no bound on its turns.  As long as the first callback is due by the
tick it is taken and run, up to one that fails or ends the clock.  `Loop behave tick s runs error
done` says that from `s` the loop runs `runs`, fails with `error` if at all, and leaves `done`. -/
inductive Loop (behave : κ → Script κ σ) (tick : Nat) :
    Stage κ σ → List (Entry κ × Stage κ σ) → Option DispatchError → Stage κ σ → Prop
  | idle {s : Stage κ σ} (h : ∀ e ∈ s.clock.queue.head?, tick < e.due) : Loop behave tick s [] none s
  | stop {s : Stage κ σ} {e : Entry κ} {rest : List (Entry κ)} (hq : s.clock.queue = e :: rest)
      (he : e.due ≤ tick) (hstop : ¬ GoesOn behave (e, s.pop rest)) :
      Loop behave tick s [(e, s.pop rest)] (failure? behave tick (e, s.pop rest))
        ((behave e.callback).exec (s.pop rest)).2
  | next {s done : Stage κ σ} {e : Entry κ} {rest : List (Entry κ)}
      {runs : List (Entry κ × Stage κ σ)} {error : Option DispatchError}
      (hq : s.clock.queue = e :: rest) (he : e.due ≤ tick) (hgo : GoesOn behave (e, s.pop rest))
      (h : Loop behave tick ((behave e.callback).exec (s.pop rest)).2 runs error done) :
      Loop behave tick s ((e, s.pop rest) :: runs) error done

section

variable {tick : Nat} {s done : Stage κ σ} {runs : List (Entry κ × Stage κ σ)}
  {error : Option DispatchError} {e : Entry κ} {rest : List (Entry κ)}

/-- A stage leaves the loop no choice. -/
theorem Loop.unique {runs' : List (Entry κ × Stage κ σ)} {error' : Option DispatchError}
    {done' : Stage κ σ} (h : Loop behave tick s runs error done)
    (h' : Loop behave tick s runs' error' done') :
    runs = runs' ∧ error = error' ∧ done = done' := by
  have hdue : ∀ {s : Stage κ σ} {e : Entry κ} {rest : List (Entry κ)},
      s.clock.queue = e :: rest → e.due ≤ tick → ¬ ∀ f ∈ s.clock.queue.head?, tick < f.due := by
    intro s e rest hq he hidle
    rw [hq] at hidle
    have := hidle e rfl
    omega
  induction h generalizing runs' error' done' with
  | idle hidle =>
    cases h' with
    | idle _ => exact ⟨rfl, rfl, rfl⟩
    | stop hq he _ => exact absurd hidle (hdue hq he)
    | next hq he _ _ => exact absurd hidle (hdue hq he)
  | stop hq he hstop =>
    cases h' with
    | idle hidle => exact absurd hidle (hdue hq he)
    | stop hq' _ _ =>
      cases hq.symm.trans hq'
      exact ⟨rfl, rfl, rfl⟩
    | next hq' _ hgo _ =>
      cases hq.symm.trans hq'
      exact absurd hgo hstop
  | next hq he hgo _ ih =>
    cases h' with
    | idle hidle => exact absurd hidle (hdue hq he)
    | stop hq' _ hstop =>
      cases hq.symm.trans hq'
      exact absurd hgo hstop
    | next hq' _ _ h' =>
      cases hq.symm.trans hq'
      obtain ⟨rfl, rfl, rfl⟩ := ih h'
      exact ⟨rfl, rfl, rfl⟩

/-! ## What a loop runs -/

theorem GoesOn.failure?_eq_none {run : Entry κ × Stage κ σ} (h : GoesOn behave run) :
    failure? behave tick run = none := by
  rw [failure?, h.1]
  rfl

/-- The loop fails if the last callback does, and as it does. -/
theorem Loop.error_eq (h : Loop behave tick s runs error done) :
    error = runs.getLast?.bind (failure? behave tick) := by
  induction h with
  | idle _ => rfl
  | stop _ _ _ => rfl
  | @next s done e rest runs error _ _ hgo _ ih =>
    rw [ih]
    cases runs with
    | nil => exact hgo.failure?_eq_none.symm
    | cons run runs => rw [List.getLast?_cons_cons]

/-- Every callback but the last lets the loop go on. -/
theorem Loop.goes_on (h : Loop behave tick s runs error done) :
    ∀ run ∈ runs.dropLast, GoesOn behave run := by
  induction h with
  | idle _ => exact nofun
  | stop _ _ _ => exact nofun
  | @next s done e rest runs error _ _ hgo _ ih =>
    cases runs with
    | nil => exact nofun
    | cons run runs =>
      rw [List.dropLast_cons_cons]
      exact List.forall_mem_cons.2 ⟨hgo, ih⟩

/-- What is due by a tick stays so through a callback, which can queue nothing for that tick. -/
theorem keeps_due (tick : Nat) (due : List (Entry κ)) : Stable .callback fun (c : Clock κ) _ =>
    c.now = tick ∧ (c.state = .terminated ∨ c.queue.filter (·.due ≤ tick) = due) where
  enqueue := by
    rintro c log offset callback hc ⟨htick, hend | hdue⟩
    · exact absurd hend hc
    · have hlate : ¬ c.now + max offset Caller.callback.lead ≤ tick := by
        show ¬ c.now + max offset 1 ≤ tick
        omega
      refine ⟨htick, .inr ?_⟩
      rw [← hdue]
      exact Entry.filter_insert_of_neg (by simpa using hlate) c.queue
  start := by
    rintro c log hc ⟨htick, hend | hdue⟩
    · exact absurd hend hc
    · exact ⟨htick, .inr hdue⟩
  terminate h := ⟨h.1, .inl rfl⟩

/-- A turn of the loop takes the first of what is due and leaves the others. -/
theorem due_exec (behave : κ → Script κ σ) (hs : s.clock.Sound) (hnow : s.clock.now = tick)
    (hq : s.clock.queue = e :: rest) :
    ((behave e.callback).exec (s.pop rest)).2.clock.Sound ∧
    ((behave e.callback).exec (s.pop rest)).2.clock.now = tick ∧
    (((behave e.callback).exec (s.pop rest)).2.clock.state = .terminated ∨
      ((behave e.callback).exec (s.pop rest)).2.clock.queue.filter (·.due ≤ tick) =
        rest.filter (·.due ≤ tick)) :=
  (Clock.Sound.stable.and (keeps_due tick (rest.filter (·.due ≤ tick)))).exec_clock
    (behave e.callback) (s := s.pop rest) ⟨hs.pop hq, hnow, .inr rfl⟩

/-- The loop runs the first of the callbacks due at its start, and not all of them only if the last
that it runs fails or ends the clock. -/
theorem Loop.runs_due (h : Loop behave tick s runs error done) (hs : s.clock.Sound)
    (hnow : s.clock.now = tick) :
    ∃ left, s.clock.queue.filter (·.due ≤ tick) = runs.map Prod.fst ++ left ∧
      (left ≠ [] → ∃ run ∈ runs.getLast?, ¬ GoesOn behave run) := by
  have htaken : ∀ {q rest : List (Entry κ)} {e : Entry κ}, q = e :: rest → e.due ≤ tick →
      q.filter (·.due ≤ tick) = e :: rest.filter (·.due ≤ tick) := by
    rintro q rest e rfl he
    exact List.filter_cons_of_pos (by simpa using he)
  induction h with
  | @idle s hidle =>
    refine ⟨[], ?_, fun h => absurd rfl h⟩
    rw [List.map_nil, List.append_nil, List.filter_eq_nil_iff]
    intro e he hdue
    have hlate := Entry.lt_due_of_idle hs.sorted (Nat.le_refl _) (.inr hidle) e he
    simp only [decide_eq_true_eq] at hdue
    omega
  | stop hq he hstop => exact ⟨_, htaken hq he, fun _ => ⟨_, rfl, hstop⟩⟩
  | next hq he hgo _ ih =>
    obtain ⟨hsound, hnow', hdue⟩ := due_exec behave hs hnow hq
    obtain ⟨left, hleft, hstops⟩ := ih hsound hnow'
    refine ⟨left, ?_, fun hne => ?_⟩
    · rw [htaken hq he, ← hdue.resolve_left hgo.2, hleft]
      rfl
    · obtain ⟨run, hrun, hstop⟩ := hstops hne
      refine ⟨run, ?_, hstop⟩
      rw [List.getLast?_cons, Option.mem_def.1 hrun]
      rfl

/-- A dispatch is the loop, as long as it is allowed a turn for each callback due. -/
theorem loop_dispatch (behave : κ → Script κ σ) {n : Nat} {s : Stage κ σ} (hs : s.clock.Sound)
    (hn : (s.clock.queue.filter (·.due ≤ s.clock.now)).length ≤ n) :
    (s.dispatch behave n).1.dispatched = (s.performances behave n).map Prod.fst ∧
    Loop behave s.clock.now s (s.performances behave n) (s.dispatch behave n).1.error
      (s.dispatch behave n).2 := by
  induction n, s using dispatch_induct behave with
  | idle n s hidle hd hp =>
    rw [hd, hp]
    refine ⟨rfl, .idle fun e he => ?_⟩
    exact Entry.lt_due_of_idle hs.sorted hn hidle e (List.mem_of_mem_head? he)
  | fails n s e rest source s' hq he hx hd hp =>
    have hstop : ¬ GoesOn behave (e, s.pop rest) := by
      rintro ⟨hnone, -⟩
      rw [hx] at hnone
      cases hnone
    have hloop := Loop.stop hq he hstop
    obtain ⟨hnow, -⟩ := dueCount_exec behave hq he hx hn
    rw [failure?, hx, ← hnow] at hloop
    rw [hd, hp, ← hnow]
    exact ⟨rfl, hloop⟩
  | ends n s e rest s' hq he hx hs' hd hp =>
    have hstop : ¬ GoesOn behave (e, s.pop rest) := by
      rintro ⟨-, hgoing⟩
      rw [hx] at hgoing
      exact hgoing hs'
    have hloop := Loop.stop hq he hstop
    rw [failure?, hx] at hloop
    rw [hd, hp]
    exact ⟨rfl, hloop⟩
  | next n s e rest s' hq he hx hs' hd hp ih =>
    obtain ⟨hnow, hn'⟩ := dueCount_exec behave hq he hx hn
    have hturn := due_exec behave hs rfl hq
    rw [hx] at hturn
    obtain ⟨hdispatched, hloop⟩ := ih hturn.1 hn'
    have hgo : GoesOn behave (e, s.pop rest) := by
      unfold GoesOn
      rw [hx]
      exact ⟨rfl, hs'⟩
    rw [hnow] at hloop
    rw [hd, hp]
    refine ⟨congrArg (e :: ·) hdispatched, .next hq he hgo ?_⟩
    rw [hx]
    exact hloop

/-! ## What a loop leaves -/

/-- What is queued in a tick is due after it. -/
theorem asked_later (tick : Nat) : Stable .callback fun (c : Clock κ) log =>
    c.now = tick ∧ ∀ r ∈ log.requests, tick + 1 ≤ r.due where
  enqueue := by
    rintro c log offset callback _ ⟨htick, hlater⟩
    refine ⟨htick, fun r hr => ?_⟩
    rcases List.mem_append.1 hr with hr | hr
    · exact hlater r hr
    · rw [List.mem_singleton.1 hr, ← htick]
      exact Nat.le_max_right _ _
  start _ h := h
  terminate h := h

end

/-- A dispatch leaves what it did not run, and what was asked for meanwhile, unless the clock has
ended. -/
theorem queue_dispatch (behave : κ → Script κ σ) (n : Nat) {s : Stage κ σ} {kept : List (Entry κ)}
    (hq : s.clock.queue = (s.dispatch behave n).1.dispatched ++ kept)
    (hgoing : (s.dispatch behave n).2.clock.state ≠ .terminated) :
    (s.dispatch behave n).2.clock.queue.Perm
      (kept ++ (s.requests behave n).map Request.entry) := by
  have hbalance := s.balanced_dispatch behave n
  unfold Balanced at hbalance
  rw [dropped_eq_nil behave n hgoing, List.append_nil, hq, List.append_assoc] at hbalance
  have hswapped := hbalance.symm.trans List.perm_append_comm
  exact (List.perm_append_right_iff _).1 hswapped

/-! ## Ticks -/

/-- What callbacks queue when they run on their stages. -/
def asked (behave : κ → Script κ σ) (runs : List (Entry κ × Stage κ σ)) : List (Request κ) :=
  runs.flatMap fun (e, s) => (behave e.callback).requests s

/-- One tick of a running clock: the callbacks it ran, each on its stage, its failure, and the stage
that they left, on which time has not moved yet. -/
structure Ticked (behave : κ → Script κ σ) (s : Stage κ σ) (runs : List (Entry κ × Stage κ σ))
    (error : Option DispatchError) (done : Stage κ σ) : Prop where
  /-- The tick is the loop without bound, which ends, and in this way only. -/
  tick : s.tick behave = (⟨runs.map Prod.fst, error⟩, done.advance)
  loop : ∀ runs' error' done', Loop behave s.clock.now s runs' error' done' ↔
    runs' = runs ∧ error' = error ∧ done' = done
  /-- What is due at its start is what it may run, in the order of due tick and index. -/
  due : s.clock.due = s.clock.queue.filter (·.due ≤ s.clock.now)
  ordered : s.clock.due.Pairwise Entry.Before
  first : runs.map Prod.fst <+: s.clock.due
  /-- It stops before the last of these only where a callback fails or ends the clock. -/
  going : ∀ run ∈ runs.dropLast, GoesOn behave run
  stopped : runs.map Prod.fst ≠ s.clock.due → ∃ run ∈ runs.getLast?, ¬ GoesOn behave run
  /-- It fails if the last of its callbacks does. -/
  failed : error = runs.getLast?.bind (failure? behave s.clock.now)
  /-- What its callbacks queue is for later ticks, and none of it runs. -/
  later : ∀ r ∈ asked behave runs, s.clock.now + 1 ≤ r.due ∧ r.entry ∉ runs.map Prod.fst
  /-- Unless the clock has ended, the rest of the queue is kept, what was asked for joins it, and
  time moves by one. -/
  kept : done.clock.state ≠ .terminated → done.advance.clock.now = s.clock.now + 1 ∧
    ∃ kept, s.clock.queue = runs.map Prod.fst ++ kept ∧
      done.advance.clock.queue.Perm (kept ++ (asked behave runs).map Request.entry)
  /-- If it does not fail, nothing is overdue after it. -/
  clear : error = none → ∀ e ∈ done.advance.clock.queue, done.advance.clock.now ≤ e.due

/-- The stage of a clock between two moves of its owner, in any course. -/
def Reached (behave : κ → Script κ σ) (s : Stage κ σ) : Prop :=
  ∃ host moves, s = (Course.after behave host moves).stage

theorem Reached.sound {s : Stage κ σ} (h : s.Reached behave) : s.clock.Sound := by
  obtain ⟨host, moves, rfl⟩ := h
  exact (Course.orderly_after behave host moves).sound

/-- Whatever is left after a tick that did not fail is due at its end or later. -/
theorem clear_dispatch {s : Stage κ σ} (hs : s.clock.Sound) (hrun : s.clock.state = .running)
    (herror : (s.dispatch behave s.clock.due.length).1.error = none) :
    ∀ e ∈ (s.dispatch behave s.clock.due.length).2.advance.clock.queue,
      (s.dispatch behave s.clock.due.length).2.advance.clock.now ≤ e.due := by
  obtain ⟨hnow, hstarted⟩ := Stable.now_dispatch behave s.clock.due.length hrun
  rcases advance_cases hstarted with ⟨hrunning, hadvance⟩ | ⟨hend, hadvance⟩
  · have hclear := dispatch_clears behave _ hs hs.dueCount_le herror (by rw [hrunning]; nofun)
    rw [hadvance]
    intro e he
    show _ + 1 ≤ e.due
    rw [hnow]
    exact hclear e he
  · have hnew : s.clock.state = .terminated → s.clock.queue = [] := by
      rw [hrun]
      nofun
    have hempty := @Course.emptied_tick _ _ behave ⟨s, {}⟩ hnew
    rw [Course.tick_of_running hrun] at hempty
    intro e he
    rw [hempty (by rw [hadvance]; exact hend)] at he
    cases he

/-- What a tick leaves, and what its callbacks queue. -/
theorem kept_dispatch (behave : κ → Script κ σ) {s : Stage κ σ} (hrun : s.clock.state = .running)
    {kept : List (Entry κ)}
    (hq : s.clock.queue = (s.dispatch behave s.clock.due.length).1.dispatched ++ kept)
    (hgoing : (s.dispatch behave s.clock.due.length).2.clock.state ≠ .terminated) :
    (s.dispatch behave s.clock.due.length).2.advance.clock.now = s.clock.now + 1 ∧
    (s.dispatch behave s.clock.due.length).2.advance.clock.queue.Perm
      (kept ++ (s.requests behave s.clock.due.length).map Request.entry) := by
  obtain ⟨hnow, hstarted⟩ := Stable.now_dispatch behave s.clock.due.length hrun
  rw [queue_advance]
  refine ⟨?_, queue_dispatch behave _ hq hgoing⟩
  rcases advance_cases hstarted with ⟨-, hadvance⟩ | ⟨hend, -⟩
  · rw [hadvance, ← hnow]
  · exact absurd hend hgoing

/-- A tick of a running clock dispatches the first of the callbacks that are due, in order, whatever
these do: it stops early only after one that fails or ends the clock, fails if the last of them
does, and leaves, one tick later, what it has not run together with what was queued meanwhile. -/
theorem tick_dispatches {s : Stage κ σ} (h : s.Reached behave) (hrun : s.clock.state = .running) :
    ∃ runs error done, s.Ticked behave runs error done := by
  have hs := h.sound
  have hdue : s.clock.due = s.clock.queue.filter (·.due ≤ s.clock.now) := Entry.takeWhile_due hs.sorted
  obtain ⟨hdispatched, hloop⟩ := loop_dispatch behave hs hs.dueCount_le
  obtain ⟨left, hleft, hstops⟩ := hloop.runs_due hs rfl
  obtain ⟨-, -, -, hlater⟩ := (asked_later s.clock.now).dispatch (fun h _ _ => h) behave
    s.clock.due.length {} hrun ⟨rfl, nofun⟩
  rw [← hdue] at hleft
  have hfirst : (s.performances behave s.clock.due.length).map Prod.fst <+: s.clock.due :=
    ⟨left, hleft.symm⟩
  refine ⟨_, _, _, ?_, fun runs' error' done' => ⟨fun h' => h'.unique hloop, ?_⟩, hdue, ?_, hfirst,
    hloop.goes_on, fun hne => hstops ?_, hloop.error_eq, fun r hr => ?_, fun hgoing => ?_,
    clear_dispatch hs hrun⟩
  · rw [tick, if_pos hrun, ← hdispatched]
  · rintro ⟨rfl, rfl, rfl⟩
    exact hloop
  · rw [hdue]
    exact hs.sorted.filter _
  · rintro rfl
    rw [List.append_nil] at hleft
    exact hne hleft.symm
  · have hr : s.clock.now + 1 ≤ r.due := hlater r hr
    refine ⟨hr, fun hmem => ?_⟩
    have hmem := hfirst.mem hmem
    rw [hdue, List.mem_filter, decide_eq_true_eq] at hmem
    have hearly : r.due ≤ s.clock.now := hmem.2
    omega
  · have hq : s.clock.queue = (s.dispatch behave s.clock.due.length).1.dispatched ++
        (left ++ s.clock.queue.dropWhile (·.due ≤ s.clock.now)) := by
      rw [hdispatched, ← List.append_assoc, ← hleft]
      exact (List.takeWhile_append_dropWhile ..).symm
    obtain ⟨hnow, hqueue⟩ := kept_dispatch behave hrun hq hgoing
    refine ⟨hnow, _, ?_, hqueue⟩
    rw [← hdispatched]
    exact hq

/-- Queues itself again at once, or fails, or does nothing. -/
def restless : Nat → Script Nat Unit
  | 0 => .call (.schedule 0 0) fun _ => .done
  | 1 => .fail "no"
  | _ => .done

/-- Three callbacks due together. -/
def crowded : Stage Nat Unit := ⟨⟨0, .running, [⟨0, 0, 0⟩, ⟨0, 1, 1⟩, ⟨0, 2, 2⟩], 3⟩, ()⟩

/-- The first queues itself again and the second fails: the third and the one queued meanwhile are
left. -/
theorem tick_dispatches_partly : crowded.Reached restless ∧ crowded.clock.state = .running ∧
    ∃ runs done, crowded.Ticked restless runs (some ⟨0, 1, "no"⟩) done ∧
      runs.map Prod.fst = [⟨0, 0, 0⟩, ⟨0, 1, 1⟩] ∧
      done.advance.clock.queue = [⟨0, 2, 2⟩, ⟨1, 3, 0⟩] := by
  have hreached : crowded.Reached restless :=
    ⟨(), [.schedule 0 0, .schedule 0 1, .schedule 0 2, .run none], rfl⟩
  obtain ⟨runs, error, done, hticked⟩ := tick_dispatches hreached rfl
  have htick : crowded.tick restless = (⟨[⟨0, 0, 0⟩, ⟨0, 1, 1⟩], some ⟨0, 1, "no"⟩⟩,
      ⟨⟨1, .running, [⟨0, 2, 2⟩, ⟨1, 3, 0⟩], 4⟩, ()⟩) := rfl
  rw [hticked.tick] at htick
  obtain ⟨hreport, hdone⟩ := Prod.mk.inj htick
  obtain ⟨hruns, rfl⟩ := TickReport.mk.inj hreport
  refine ⟨hreached, rfl, runs, done, hticked, hruns, ?_⟩
  rw [hdone]

end Stage

end Stave
