import Mathlib.Data.List.Sort
import Stave.Proofs.Clock.Runs
import Stave.Proofs.Clock.Tick
import Stave.Proofs.Session

/-!
# Callbacks that queue themselves

A callback that queues itself again each time it runs has many copies, one after the other.  As long
as nothing fails and the clock goes on, the n-th is due n intervals after the first, an interval
being one tick at least; it is in the queue up to that tick, and it runs on that tick.  So no ticks
are lost or gained over any number of runs, and there is one copy waiting at every moment between
ticks, whatever else is queued.

    what the log says of a history                                        (recorded_after)
    the n-th copy is due n intervals after the first                      (due_copy)
    there is one n-th copy                                                (copy_unique)
    the copies that have run, and the one that has not                    (periodic)
-/

namespace Stave

variable {κ σ : Type} {behave : κ → Script κ σ}

/-! ## Histories and chronicles -/

namespace Stage

/-- All callbacks of a dispatch that does not fail and leaves the clock going let it go on. -/
theorem goes_on_performances (behave : κ → Script κ σ) (n : Nat) {s : Stage κ σ}
    (herror : (s.dispatch behave n).1.error = none)
    (hgoing : (s.dispatch behave n).2.clock.state ≠ .terminated) :
    ∀ run ∈ s.performances behave n, GoesOn behave run := by
  induction n, s using dispatch_induct behave with
  | idle n s _ _ hp =>
    rw [hp]
    exact nofun
  | fails n s e rest source s' _ _ _ hd _ =>
    rw [hd] at herror
    cases herror
  | ends n s e rest s' _ _ _ hend hd _ =>
    rw [hd] at hgoing
    exact absurd hend hgoing
  | next n s e rest s' _ _ hx hs' hd hp ih =>
    have hgo : GoesOn behave (e, s.pop rest) := by
      unfold GoesOn
      rw [hx]
      exact ⟨rfl, hs'⟩
    rw [hd] at herror hgoing
    rw [hp]
    exact List.forall_mem_cons.2 ⟨hgo, ih herror hgoing⟩

end Stage

/-- What a callback queues, it queues as a callback and at the time of its clock. -/
theorem Script.stamped_requests (script : Script κ σ) (s : Stage κ σ) :
    ∀ r ∈ script.requests s, r.caller = .callback ∧ r.now = s.clock.now := by
  have hstable : Stable .callback fun (c : Clock κ) log => c.now = s.clock.now ∧
      ∀ r ∈ log.requests, r.caller = .callback ∧ r.now = s.clock.now := by
    refine ⟨?_, fun _ h => h, fun h => h⟩
    rintro c log offset callback _ ⟨hnow, hlog⟩
    refine ⟨hnow, fun r hr => ?_⟩
    rcases List.mem_append.1 hr with hr | hr
    · exact hlog r hr
    · rw [List.mem_singleton.1 hr]
      exact ⟨rfl, hnow⟩
  exact (hstable.exec script {} ⟨rfl, nofun⟩).2

namespace Course

/-- What the log of a course says of the callbacks that have run. -/
structure Recorded (behave : κ → Script κ σ) (r : Course κ σ) (runs : List (Entry κ × Stage κ σ)) :
    Prop where
  dispatched : r.log.dispatched = runs.map fun run => ⟨run.2.clock.now, run.1⟩
  requests : ∀ run ∈ runs, ∀ x ∈ (behave run.1.callback).requests run.2, x ∈ r.log.requests
  goes_on : r.log.failures = [] → r.stage.clock.state ≠ .terminated →
    ∀ run ∈ runs, Stage.GoesOn behave run

variable {r : Course κ σ} {runs : List (Entry κ × Stage κ σ)}

theorem Recorded.ask (h : Recorded behave r runs) (call : Call κ) :
    Recorded behave (r.ask call) runs where
  dispatched := (dispatched_ask r call).trans h.dispatched
  requests := by
    intro run hrun x hx
    have hmem := h.requests run hrun x hx
    unfold Course.ask
    split
    · exact List.mem_append_left _ hmem
    · exact hmem
  goes_on := by
    intro hfail hgoing
    rw [failures_ask] at hfail
    exact h.goes_on hfail fun hend => hgoing (Stable.terminated.ask call hend)

theorem Recorded.tick (h : Recorded behave r runs) :
    Recorded behave (r.tick behave) (runs ++ r.ran behave .tick) := by
  rw [ran]
  by_cases hrun : r.stage.clock.state = .running
  · rw [tick_of_running hrun, if_pos hrun]
    constructor
    · show r.log.dispatched ++ List.map _ _ = _
      rw [h.dispatched, List.map_append, Stage.dispatched_eq, List.map_map]
      refine congrArg _ (List.map_congr_left fun run hmem => ?_)
      have hnow := (Stage.running_of_performance hrun hmem).2
      exact congrArg (Dispatch.mk · run.1) hnow.symm
    · intro run hmem x hx
      refine List.mem_append.2 ((List.mem_append.1 hmem).imp (h.requests run · x hx) fun hmem => ?_)
      exact List.mem_flatMap.2 ⟨run, hmem, hx⟩
    · intro hfail hgoing
      obtain ⟨hbefore, herror⟩ := List.append_eq_nil_iff.1 hfail
      have hended : (r.stage.dispatch behave r.stage.clock.due.length).2.clock.state ≠ .terminated := by
        intro hend
        apply hgoing
        rw [Stage.advance, if_neg (by rw [hend]; decide)]
        exact hend
      have hnew := Stage.goes_on_performances behave _ (Option.toList_eq_nil_iff.1 herror) hended
      refine List.forall_mem_append.2 ⟨h.goes_on hbefore ?_, hnew⟩
      rw [hrun]
      rintro ⟨⟩
  · rw [tick_of_not_running hrun, if_neg hrun, List.append_nil]
    exact h

theorem Recorded.move (h : Recorded behave r runs) (m : Move κ) :
    Recorded behave (r.move behave m) (runs ++ r.ran behave m) := by
  have hask : ∀ call, Recorded behave (r.ask call) (runs ++ []) := by
    intro call
    rw [List.append_nil]
    exact h.ask call
  cases m with
  | run first => exact hask _
  | schedule offset callback => exact hask _
  | bind resolution cue events =>
    rw [Course.move]
    split
    · exact hask _
    · show Recorded behave r (runs ++ [])
      rw [List.append_nil]
      exact h
  | terminate => exact hask .terminate
  | tick => exact h.tick

theorem Recorded.moves (h : Recorded behave r runs) (moves : List (Move κ)) :
    Recorded behave (moves.foldl (Course.move behave) r) (runs ++ r.runs behave moves) := by
  induction moves generalizing r runs with
  | nil =>
    rw [Course.runs, List.append_nil]
    exact h
  | cons m moves ih =>
    rw [Course.runs, ← List.append_assoc]
    exact ih (h.move m)

theorem recorded_after (behave : κ → Script κ σ) (host : σ) (moves : List (Move κ)) :
    Recorded behave (after behave host moves) (history behave host moves) := by
  have hnew : Recorded behave ⟨⟨{}, host⟩, {}⟩ [] := ⟨rfl, nofun, nofun⟩
  exact hnew.moves moves

/-! ## Undisturbed courses -/

variable {host : σ} {moves : List (Move κ)} {e : Entry κ} {s : Stage κ σ}

/-- Where nothing has failed and the clock goes on, whatever has run was asked for, ran on the tick
that it was asked for, and that tick is over. -/
theorem ran_of_mem_history (hfail : (after behave host moves).log.failures = [])
    (hgoing : (after behave host moves).stage.clock.state ≠ .terminated)
    (h : (e, s) ∈ history behave host moves) :
    e ∈ (after behave host moves).log.requests.map Request.entry ∧ s.clock.now = e.due ∧
      e.due < (after behave host moves).stage.clock.now := by
  have horderly := orderly_after behave host moves
  have hmem : ⟨s.clock.now, e⟩ ∈ (after behave host moves).log.dispatched := by
    rw [(recorded_after behave host moves).dispatched]
    exact List.mem_map.2 ⟨(e, s), h, rfl⟩
  exact ⟨horderly.known _ hmem, (punctual_after behave host moves hfail).exact _ hmem,
    horderly.past hgoing _ hmem⟩

/-- What was asked for has run or is in the queue. -/
theorem ran_or_queued (hgoing : (after behave host moves).stage.clock.state ≠ .terminated)
    (h : e ∈ (after behave host moves).log.requests.map Request.entry) :
    (∃ s, (e, s) ∈ history behave host moves) ∨ e ∈ (after behave host moves).stage.clock.queue := by
  have hledger := ledger_after behave host moves
  rw [drops_eq_nil moves hgoing] at hledger
  have hmem := (hledger.mem_iff (a := e)).1 h
  rw [List.append_nil, List.mem_append, dispatched_after] at hmem
  refine hmem.symm.imp_left fun hran => ?_
  obtain ⟨⟨_, s⟩, hrun, rfl⟩ := List.mem_map.1 hran
  exact ⟨s, hrun⟩

/-- No callback runs twice. -/
theorem eq_of_mem_history {run run' : Entry κ × Stage κ σ} (hrun : run ∈ history behave host moves)
    (hrun' : run' ∈ history behave host moves) (h : run.1 = run'.1) : run = run' := by
  have hordered := (orderly_after behave host moves).ordered
  rw [dispatched_after] at hordered
  exact List.inj_on_of_nodup_map (Entry.nodup hordered) hrun hrun' h

end Course

/-! ## Copies -/

/-- A run of a callback that queues the callback again: once, and some ticks ahead. -/
def Requeues (behave : κ → Script κ σ) (interval : Nat) (run : Entry κ × Stage κ σ) : Prop :=
  ∃ again : Request κ, again.offset = interval ∧
    ∀ r, r ∈ (behave run.1.callback).requests run.2 ∧ r.callback = run.1.callback ↔ r = again

/-- A callback is its own copy number 0; what a run of copy number n queues of itself is copy number
n + 1. -/
inductive Copy (behave : κ → Script κ σ) (runs : List (Entry κ × Stage κ σ)) (first : Entry κ) :
    Nat → Entry κ → Prop
  | first : Copy behave runs first 0 first
  | again {n : Nat} {run : Entry κ × Stage κ σ} {r : Request κ}
      (h : Copy behave runs first n run.1) (hrun : run ∈ runs)
      (hr : r ∈ (behave run.1.callback).requests run.2) (hsame : r.callback = run.1.callback) :
      Copy behave runs first (n + 1) r.entry

namespace Course

/-- A callback of a course and its copies, whatever their number. -/
def Copied (behave : κ → Script κ σ) (host : σ) (moves : List (Move κ)) (first e : Entry κ) : Prop :=
  ∃ n, Copy behave (history behave host moves) first n e

/-- A callback that was asked for in a course and queues itself again whenever it runs.  No callback
of the course has failed, and the clock has not ended. -/
structure Repeats (behave : κ → Script κ σ) (host : σ) (moves : List (Move κ)) (first : Entry κ)
    (interval : Nat) : Prop where
  quiet : (after behave host moves).log.failures = []
  going : (after behave host moves).stage.clock.state ≠ .terminated
  asked : first ∈ (after behave host moves).log.requests.map Request.entry
  requeues : ∀ run ∈ history behave host moves, Copied behave host moves first run.1 →
    Requeues behave interval run

section

variable {host : σ} {moves : List (Move κ)} {first e e' : Entry κ} {interval n n' : Nat}

namespace Repeats

theorem asked_copy (h : Repeats behave host moves first interval)
    (he : Copy behave (history behave host moves) first n e) :
    e ∈ (after behave host moves).log.requests.map Request.entry := by
  cases he with
  | first => exact h.asked
  | again _ hrun hr _ =>
    exact List.mem_map_of_mem ((recorded_after behave host moves).requests _ hrun _ hr)

/-- The copies are due at regular intervals, of one tick at least. -/
theorem due_copy (h : Repeats behave host moves first interval)
    (he : Copy behave (history behave host moves) first n e) :
    e.due = first.due + n * max interval 1 := by
  induction he with
  | first => rw [Nat.zero_mul, Nat.add_zero]
  | @again n run r hcopy hrun hr hsame ih =>
    -- with nothing delayed, the run that queues the next copy is on the very tick it was due
    obtain ⟨-, htime, -⟩ := ran_of_mem_history h.quiet h.going hrun
    obtain ⟨hcaller, hnow⟩ := (behave run.1.callback).stamped_requests run.2 r hr
    obtain ⟨again, hoffset, honly⟩ := h.requeues run hrun ⟨n, hcopy⟩
    obtain rfl := (honly r).1 ⟨hr, hsame⟩
    show r.due = _
    rw [Request.due_eq, hcaller, hnow, htime, ih, hoffset, Nat.succ_mul, Nat.add_assoc]
    rfl

/-- There are no two copies of one number. -/
theorem copy_unique (h : Repeats behave host moves first interval)
    (he : Copy behave (history behave host moves) first n e)
    (he' : Copy behave (history behave host moves) first n e') : e = e' := by
  induction he generalizing e' with
  | first =>
    cases he' with
    | first => rfl
  | @again n run r hcopy hrun hr hsame ih =>
    cases he' with
    | @again _ run' r' hcopy' hrun' hr' hsame' =>
      obtain rfl := eq_of_mem_history hrun hrun' (ih hcopy')
      obtain ⟨again, -, honly⟩ := h.requeues run hrun ⟨n, hcopy⟩
      rw [(honly r).1 ⟨hr, hsame⟩, (honly r').1 ⟨hr', hsame'⟩]

/-- A copy that is due at a time that is over has run, at that time. -/
theorem ran_copy (h : Repeats behave host moves first interval)
    (he : Copy behave (history behave host moves) first n e)
    (hover : e.due < (after behave host moves).stage.clock.now) :
    ∃ s, (e, s) ∈ history behave host moves ∧ s.clock.now = e.due := by
  rcases ran_or_queued h.going (h.asked_copy he) with ⟨s, hran⟩ | hqueued
  · exact ⟨s, hran, (ran_of_mem_history h.quiet h.going hran).2.1⟩
  · have := (punctual_after behave host moves h.quiet).early e hqueued
    omega

/-- Any other copy is in the queue. -/
theorem queued_copy (h : Repeats behave host moves first interval)
    (he : Copy behave (history behave host moves) first n e)
    (hahead : (after behave host moves).stage.clock.now ≤ e.due) :
    e ∈ (after behave host moves).stage.clock.queue := by
  refine (ran_or_queued h.going (h.asked_copy he)).resolve_left ?_
  rintro ⟨s, hran⟩
  have := (ran_of_mem_history h.quiet h.going hran).2.2
  omega

/-- There is a copy of every number up to the first whose time is not over. -/
theorem exists_copy (h : Repeats behave host moves first interval)
    (hover : ∀ k < n, first.due + k * max interval 1 < (after behave host moves).stage.clock.now) :
    ∃ e, Copy behave (history behave host moves) first n e := by
  induction n with
  | zero => exact ⟨first, .first⟩
  | succ n ih =>
    -- the time of copy n is over, so it has run, and its run has queued the next
    obtain ⟨e, he⟩ := ih fun k hk => hover k (Nat.lt_succ_of_lt hk)
    have hdue := hover n (Nat.lt_succ_self n)
    rw [← h.due_copy he] at hdue
    obtain ⟨s, hran, -⟩ := h.ran_copy he hdue
    obtain ⟨again, -, honly⟩ := h.requeues (e, s) hran ⟨n, he⟩
    obtain ⟨hr, hsame⟩ := (honly again).2 rfl
    exact ⟨again.entry, .again he hran hr hsame⟩

/-- Before a copy was queued, the one before it has run. -/
theorem number_le (h : Repeats behave host moves first interval) {count : Nat}
    (hcount : ∀ k, k < count ↔
      first.due + k * max interval 1 < (after behave host moves).stage.clock.now)
    (he : Copy behave (history behave host moves) first n e) : n ≤ count := by
  cases he with
  | first => exact Nat.zero_le count
  | @again n run r hcopy hrun _ _ =>
    have hover := (ran_of_mem_history h.quiet h.going hrun).2.2
    rw [h.due_copy hcopy] at hover
    exact (hcount n).2 hover

/-- Copies that are due together are one. -/
theorem eq_of_due_eq (h : Repeats behave host moves first interval)
    (he : Copied behave host moves first e) (he' : Copied behave host moves first e')
    (hdue : e.due = e'.due) : e = e' := by
  obtain ⟨n, he⟩ := he
  obtain ⟨n', he'⟩ := he'
  rw [h.due_copy he, h.due_copy he'] at hdue
  have hpos : 0 < max interval 1 := by omega
  obtain rfl : n = n' := Nat.eq_of_mul_eq_mul_right hpos (Nat.add_left_cancel hdue)
  exact h.copy_unique he he'

open Classical in
/-- The copies run one after the other, each at a later time. -/
theorem times_sorted (h : Repeats behave host moves first interval) :
    (((history behave host moves).filter (Copied behave host moves first ·.1)).map
      (·.2.clock.now)).Pairwise (· < ·) := by
  have hordered := (orderly_after behave host moves).ordered
  rw [dispatched_after, List.pairwise_map] at hordered
  rw [List.pairwise_map]
  refine (hordered.filter _).imp_of_mem ?_
  -- the history is ordered by due tick and index; no two copies share a tick, so the ticks differ
  rintro ⟨a, s⟩ ⟨b, t⟩ ha hb hbefore
  obtain ⟨ha, hcopya⟩ := List.mem_filter.1 ha
  obtain ⟨hb, hcopyb⟩ := List.mem_filter.1 hb
  have htimea := (ran_of_mem_history h.quiet h.going ha).2.1
  have htimeb := (ran_of_mem_history h.quiet h.going hb).2.1
  show s.clock.now < t.clock.now
  rw [htimea, htimeb]
  refine Nat.lt_of_le_of_ne hbefore.due_le fun hdue => ?_
  have hsame : a = b := h.eq_of_due_eq (of_decide_eq_true hcopya) (of_decide_eq_true hcopyb) hdue
  rw [hsame] at hbefore
  exact Entry.Before.irrefl b hbefore

open Classical in
/-- These times are the regular ones that are over. -/
theorem mem_times (h : Repeats behave host moves first interval) {count : Nat}
    (hcount : ∀ k, k < count ↔
      first.due + k * max interval 1 < (after behave host moves).stage.clock.now) (time : Nat) :
    time ∈ ((history behave host moves).filter (Copied behave host moves first ·.1)).map
        (·.2.clock.now) ↔
      time ∈ (List.range count).map (first.due + · * max interval 1) := by
  simp only [List.mem_map, List.mem_filter, decide_eq_true_eq, List.mem_range]
  constructor
  · rintro ⟨⟨e, s⟩, ⟨hran, k, hcopy⟩, rfl⟩
    obtain ⟨-, htime, hover⟩ := ran_of_mem_history h.quiet h.going hran
    rw [h.due_copy hcopy] at htime hover
    exact ⟨k, (hcount k).2 hover, htime.symm⟩
  · rintro ⟨k, hk, rfl⟩
    obtain ⟨e, he⟩ := h.exists_copy fun j hj => (hcount j).1 (Nat.lt_trans hj hk)
    have hdue := h.due_copy he
    obtain ⟨s, hran, htime⟩ := h.ran_copy he (by rw [hdue]; exact (hcount k).1 hk)
    exact ⟨(e, s), ⟨hran, k, he⟩, htime.trans hdue⟩

open Classical in
/-- The copy that waits is the one for the next of these times. -/
theorem waiting (h : Repeats behave host moves first interval) {count : Nat}
    (hcount : ∀ k, k < count ↔
      first.due + k * max interval 1 < (after behave host moves).stage.clock.now) :
    ∃ next,
      (after behave host moves).stage.clock.queue.filter (Copied behave host moves first) = [next] ∧
      next.due = first.due + count * max interval 1 := by
  obtain ⟨next, hnext⟩ := h.exists_copy fun k hk => (hcount k).1 hk
  have hdue := h.due_copy hnext
  have hahead : (after behave host moves).stage.clock.now ≤ next.due := by
    rw [hdue]
    exact Nat.le_of_not_lt fun hover => Nat.lt_irrefl _ ((hcount count).2 hover)
  have hnodup := Entry.nodup (orderly_after behave host moves).sound.sorted
  refine ⟨next, List.perm_singleton.1 ?_, hdue⟩
  rw [List.perm_ext_iff_of_nodup (hnodup.filter _) (List.nodup_singleton next)]
  intro e
  rw [List.mem_filter, decide_eq_true_eq, List.mem_singleton]
  constructor
  · rintro ⟨hqueued, k, he⟩
    have hle := h.number_le hcount he
    have hahead := (punctual_after behave host moves h.quiet).early e hqueued
    rw [h.due_copy he] at hahead
    have hge : ¬ k < count := fun hk => Nat.not_lt.2 hahead ((hcount k).1 hk)
    obtain rfl : k = count := by omega
    exact h.copy_unique he hnext
  · rintro rfl
    exact ⟨h.queued_copy hnext hahead, count, hnext⟩

end Repeats

/-- How many of the regular times are over. -/
theorem exists_over (first interval now : Nat) :
    ∃ count, ∀ k, k < count ↔ first + k * max interval 1 < now := by
  have hpos : 0 < max interval 1 := by omega
  refine ⟨(now - first + max interval 1 - 1) / max interval 1, fun k => ?_⟩
  rw [Nat.lt_iff_add_one_le, Nat.le_div_iff_mul_le hpos, Nat.succ_mul]
  omega

open Classical in
/-- A callback that queues itself again whenever it runs has run at regular intervals from its first
time on, once at each time that is over and never else, and exactly one copy of it is waiting, for
the next of these times. -/
theorem periodic (h : Repeats behave host moves first interval) :
    (∀ s, (first, s) ∈ history behave host moves → s.clock.now = first.due) ∧
    ∃ count,
      (∀ k, k < count ↔
        first.due + k * max interval 1 < (after behave host moves).stage.clock.now) ∧
      ((history behave host moves).filter (Copied behave host moves first ·.1)).map (·.2.clock.now) =
        (List.range count).map (first.due + · * max interval 1) ∧
      ∃ next,
        (after behave host moves).stage.clock.queue.filter (Copied behave host moves first) = [next] ∧
        next.due = first.due + count * max interval 1 := by
  refine ⟨fun s hran => (ran_of_mem_history h.quiet h.going hran).2.1, ?_⟩
  obtain ⟨count, hcount⟩ := exists_over first.due interval (after behave host moves).stage.clock.now
  have hregular : ((List.range count).map (first.due + · * max interval 1)).Pairwise (· < ·) := by
    have hpos : 0 < max interval 1 := by omega
    rw [List.pairwise_map]
    refine List.pairwise_lt_range.imp fun hlt => ?_
    exact Nat.add_lt_add_left (Nat.mul_lt_mul_of_pos_right hlt hpos) _
  exact ⟨count, hcount, h.times_sorted.eq_of_mem_iff hregular (h.mem_times hcount),
    h.waiting hcount⟩

end

end Course

/-! ## Periodic commands -/

theorem Copy.callback_eq {runs : List (Entry κ × Stage κ σ)} {first e : Entry κ} {n : Nat}
    (h : Copy behave runs first n e) : e.callback = first.callback := by
  induction h with
  | first => rfl
  | again _ _ _ hsame ih => exact hsame.trans ih

namespace Session

/-- An action of one periodic command queues itself again, unless it fails or finds the clock
ended. -/
theorem requeues_every {interval : Nat} {text : String} {run : Entry Callback × State}
    (hcallback : run.1.callback = .action [.every interval text])
    (hgo : Stage.GoesOn Session.behave run) : Requeues Session.behave interval run := by
  obtain ⟨⟨due, index, callback⟩, s⟩ := run
  obtain rfl : callback = .action [.every interval text] := hcallback
  have hgoing : s.clock.state ≠ .terminated := fun hend =>
    hgo.2 (Stable.terminated.exec_clock _ hend)
  have hoffset : ¬ (interval : Int) < 0 := by omega
  have hanswer : s.clock.answer .callback (.schedule interval (.action [.every interval text])) =
      .ok (s.clock.enqueue .callback interval (.action [.every interval text]), 1) := by
    rw [Clock.answer, if_neg hoffset, if_neg hgoing]
    rfl
  have hrequests : (Session.behave (.action [.every interval text])).requests s =
      [⟨.callback, s.clock.now, interval, s.clock.nextIndex, .action [.every interval text]⟩] := by
    show (insist (.schedule interval (.action [.every interval text])) fun _ => .done).requests
      { s with host := _ } = _
    rw [insist, Script.requests, hanswer, Clock.asked, if_neg hgoing, Call.wanted, if_neg hoffset]
    rfl
  refine ⟨⟨.callback, s.clock.now, interval, s.clock.nextIndex, .action [.every interval text]⟩, rfl,
    fun r => ?_⟩
  show r ∈ (Session.behave _).requests s ∧ _ ↔ _
  rw [hrequests, List.mem_singleton]
  constructor
  · exact And.left
  · rintro rfl
    exact ⟨rfl, rfl⟩

/-- The moves of an owner who starts a beat of two ticks among other work. -/
def beating : List (Move Callback) :=
  [.schedule 0 (.action [.every 2 "beat"]), .schedule 0 (.action [.schedule 2 [.log "other"]]),
    .run none, .tick, .tick, .tick, .tick]

end Session

namespace Course

open Classical in
/-- It beats on the ticks 0 and 2, and next on 4. -/
theorem periodic_beats :
    ((history Session.behave {} Session.beating).filter
      (Copied Session.behave {} Session.beating ⟨0, 0, .action [.every 2 "beat"]⟩ ·.1)).map
        (·.2.clock.now) = [0, 2] ∧
    ∃ next, (after Session.behave {} Session.beating).stage.clock.queue.filter
      (Copied Session.behave {} Session.beating ⟨0, 0, .action [.every 2 "beat"]⟩) = [next] ∧
        next.due = 4 := by
  have hquiet : (after Session.behave {} Session.beating).log.failures = [] := rfl
  have hgoing : (after Session.behave {} Session.beating).stage.clock.state ≠ .terminated := nofun
  have hrepeats : Repeats Session.behave {} Session.beating ⟨0, 0, .action [.every 2 "beat"]⟩ 2 := by
    refine ⟨hquiet, hgoing, List.mem_cons_self, ?_⟩
    rintro run hrun ⟨n, hcopy⟩
    exact Session.requeues_every hcopy.callback_eq
      ((recorded_after _ _ _).goes_on hquiet hgoing run hrun)
  obtain ⟨-, count, hcount, htimes, next, hwaiting, hdue⟩ := periodic hrepeats
  have hnow : (after Session.behave {} Session.beating).stage.clock.now = 4 := rfl
  have hone : 1 < count := (hcount 1).2 (by rw [hnow]; decide)
  have htwo : ¬ 2 < count := fun htwo => absurd ((hcount 2).1 htwo) (by rw [hnow]; decide)
  obtain rfl : count = 2 := by omega
  exact ⟨htimes, next, hwaiting, hdue⟩

end Course

end Stave
