import Stave.Proofs.Clock.Course
import Stave.Proofs.Sequencer.Playback

/-!
# Failures only delay

A sink that fails some of its calls cuts ticks short, and what a tick leaves behind competes with
what is due on the next.  The calls are made in the same order all the same: an owner who goes on
ticking until nothing is queued has made the calls that are made when none fails, each of them late
by no more ticks than calls have failed before it.

    r.persist behave n ticks on after failures, at most n times, until the queue is empty
    Delayed queue failing s log → a tick keeps it                                (Delayed.tick)
    a sink failing some calls gets the calls of one that fails none     (failures_only_delay)
-/

namespace Stave

variable {κ σ : Type}

/-! ## Going on after failures -/

/-- At most some number of ticks, going on after failures, until nothing is queued. -/
def Course.persist (behave : κ → Script κ σ) : Nat → Course κ σ → Course κ σ
  | 0, r => r
  | n + 1, r => if r.stage.clock.queue.isEmpty then r else persist behave n (r.tick behave)

theorem Course.persist_of_empty (behave : κ → Script κ σ) (n : Nat) {r : Course κ σ}
    (h : r.stage.clock.queue = []) : r.persist behave n = r := by
  cases n with
  | zero => rfl
  | succ n => exact if_pos (by rw [h]; rfl)

/-- Once nothing is queued, further ticks are not made. -/
theorem Course.persist_of_le (behave : κ → Script κ σ) {n m : Nat} {r : Course κ σ} (hnm : n ≤ m)
    (h : (r.persist behave n).stage.clock.queue = []) :
    r.persist behave m = r.persist behave n := by
  induction n generalizing r m with
  | zero => exact persist_of_empty behave m h
  | succ n ih =>
    obtain ⟨m, rfl⟩ := Nat.exists_eq_succ_of_ne_zero (Nat.ne_zero_of_lt hnm)
    by_cases hq : r.stage.clock.queue.isEmpty
    · rw [persist, persist, if_pos hq, if_pos hq]
    · rw [persist, if_neg hq] at h ⊢
      rw [persist, if_neg hq]
      exact ih (Nat.le_of_succ_le_succ hnm) h

/-! ## What comes of some calls -/

/-- How many of the first calls to a sink fail. -/
def failuresBefore (failing : List Nat) (calls : Nat) : Nat :=
  (List.range calls).countP failing.contains

theorem failuresBefore_succ (failing : List Nat) (calls : Nat) :
    failuresBefore failing (calls + 1) =
      failuresBefore failing calls + if failing.contains calls then 1 else 0 := by
  rw [failuresBefore, List.range_succ, List.countP_append, List.countP_singleton]
  rfl

theorem failuresBefore_le (failing : List Nat) (calls : Nat) :
    failuresBefore failing calls ≤ calls := by
  have h := List.countP_le_length (p := failing.contains) (l := List.range calls)
  rwa [List.length_range] at h

/-- The message that a cue sends when it is dispatched. -/
def Dispatch.message (d : Dispatch Cue) : Message := d.entry.callback.message d.tick

/-- What the owner of a clock hears of a callback whose sink call fails. -/
def Dispatch.failure (d : Dispatch κ) (call : Nat) : DispatchError :=
  ⟨d.tick, d.entry.index, "sink call " ++ toString call ++ " failed"⟩

/-- The failures of callbacks that make one sink call each. -/
def callFailures (failing : List Nat) (ds : List (Dispatch κ)) : List DispatchError :=
  (ds.zipIdx.filter fun (_, call) => failing.contains call).map fun (d, call) => d.failure call

/-- The messages that a sink keeps of such callbacks. -/
def callMessages (failing : List Nat) (ds : List (Dispatch Cue)) : List Message :=
  (ds.zipIdx.filter fun (_, call) => !failing.contains call).map fun (d, _) => d.message

section

variable {failing : List Nat}

theorem zipIdx_concat (ds : List (Dispatch κ)) (d : Dispatch κ) :
    (ds ++ [d]).zipIdx = ds.zipIdx ++ [(d, ds.length)] := by
  rw [List.zipIdx_append, Nat.zero_add]
  rfl

/-- What the last call adds to a list of calls. -/
theorem calls_concat {α : Type} (test : Dispatch κ × Nat → Bool) (field : Dispatch κ × Nat → α)
    (ds : List (Dispatch κ)) (d : Dispatch κ) :
    ((ds ++ [d]).zipIdx.filter test).map field = (ds.zipIdx.filter test).map field ++
      if test (d, ds.length) then [field (d, ds.length)] else [] := by
  rw [zipIdx_concat, List.filter_append, List.map_append]
  by_cases hlast : test (d, ds.length)
  · rw [if_pos hlast, List.filter_cons_of_pos hlast]
    rfl
  · rw [if_neg hlast, List.filter_cons_of_neg hlast]
    rfl

theorem callFailures_concat (ds : List (Dispatch κ)) (d : Dispatch κ) :
    callFailures failing (ds ++ [d]) =
      callFailures failing ds ++ if failing.contains ds.length then [d.failure ds.length] else [] :=
  calls_concat _ _ ds d

theorem callMessages_concat (ds : List (Dispatch Cue)) (d : Dispatch Cue) :
    callMessages failing (ds ++ [d]) =
      callMessages failing ds ++ if failing.contains ds.length then [] else [d.message] := by
  refine (calls_concat _ _ ds d).trans ?_
  show callMessages failing ds ++ (if !failing.contains ds.length then [d.message] else []) = _
  cases failing.contains ds.length <;> rfl

end

namespace Sink

theorem receive_calls (s : Sink) (m : Message) : (s.receive m).2.calls = s.calls + 1 := by
  unfold receive
  split <;> rfl

theorem receive_failing (s : Sink) (m : Message) : (s.receive m).2.failing = s.failing := by
  unfold receive
  split <;> rfl

theorem receive_messages (s : Sink) (m : Message) : (s.receive m).2.messages =
    s.messages ++ if s.failing.contains s.calls then [] else [m] := by
  unfold receive
  split
  · exact (List.append_nil _).symm
  · rfl

theorem receive_failure (s : Sink) (m : Message) : (s.receive m).1 =
    if s.failing.contains s.calls then some ("sink call " ++ toString s.calls ++ " failed")
    else none := by
  unfold receive
  split <;> rfl

end Sink

theorem Stage.exec_cue_receive (c : Cue) (s : Stage Cue Sink) :
    c.script.exec s = ((s.host.receive (c.message s.clock.now)).1,
      { s with host := (s.host.receive (c.message s.clock.now)).2 }) := by
  simp only [Cue.script, Script.exec, Clock.view]
  rcases s.host.receive (c.message s.clock.now) with ⟨_ | failure, host⟩ <;> rfl

/-! ## The invariant -/

/-- A running clock that has dispatched the first of some cues and still holds the others, and a
sink that has had a call from each of the first.  Every failure may have cost one tick. -/
structure Delayed (cues : List (Entry Cue)) (failing : List Nat) (s : Stage Cue Sink)
    (log : Chronicle Cue) : Prop where
  running : s.clock.state = .running
  sorted : s.clock.queue.Pairwise Entry.Before
  divided : log.dispatched.map Dispatch.entry ++ s.clock.queue = cues
  failing_eq : s.host.failing = failing
  calls : s.host.calls = log.dispatched.length
  messages : s.host.messages = callMessages failing log.dispatched
  failures : log.failures = callFailures failing log.dispatched
  late : ∀ d i, (d, i) ∈ log.dispatched.zipIdx →
    d.entry.due ≤ d.tick ∧ d.tick ≤ d.entry.due + failuresBefore failing i
  still : ∀ e ∈ s.clock.queue,
    s.clock.now ≤ e.due + failuresBefore failing log.dispatched.length

section

variable {cues : List (Entry Cue)} {failing : List Nat} {s : Stage Cue Sink} {log : Chronicle Cue}
  {e : Entry Cue} {rest : List (Entry Cue)}

/-- One callback. -/
theorem Delayed.pop (h : Delayed cues failing s log) (hq : s.clock.queue = e :: rest)
    (he : e.due ≤ s.clock.now) :
    Delayed cues failing (e.callback.script.exec (s.pop rest)).2
      ((log.take s.clock.now [e]).fail
        ((e.callback.script.exec (s.pop rest)).1.map (DispatchError.mk s.clock.now e.index)).toList) := by
  obtain ⟨hdue, hrest⟩ : (∀ f ∈ rest, f ∈ s.clock.queue) ∧ rest.Pairwise Entry.Before := by
    rw [hq]
    exact ⟨fun f hf => List.mem_cons_of_mem e hf, (List.pairwise_cons.1 (hq ▸ h.sorted)).2⟩
  have hmore : ∀ calls, failuresBefore failing calls ≤ failuresBefore failing (calls + 1) := by
    intro calls
    rw [failuresBefore_succ]
    exact Nat.le_add_right _ _
  rw [Stage.exec_cue_receive]
  constructor
  · exact h.running
  · exact hrest
  · rw [← h.divided, hq]
    show (log.dispatched ++ [Dispatch.mk s.clock.now e]).map Dispatch.entry ++ rest = _
    rw [List.map_append, List.append_assoc]
    rfl
  · rw [← h.failing_eq]
    exact Sink.receive_failing _ _
  · show (s.host.receive _).2.calls = (log.dispatched ++ [Dispatch.mk s.clock.now e]).length
    rw [Sink.receive_calls, h.calls, List.length_append, List.length_singleton]
  · show (s.host.receive _).2.messages = callMessages failing (log.dispatched ++ [Dispatch.mk s.clock.now e])
    rw [Sink.receive_messages, callMessages_concat, h.failing_eq, h.calls, h.messages]
    rfl
  · show log.failures ++ _ = callFailures failing (log.dispatched ++ [Dispatch.mk s.clock.now e])
    rw [callFailures_concat, ← h.failures]
    show log.failures ++ ((s.host.receive _).1.map _).toList = _
    rw [Sink.receive_failure, h.failing_eq, h.calls]
    split <;> rfl
  · intro d i hd
    change (d, i) ∈ (log.dispatched ++ [Dispatch.mk s.clock.now e]).zipIdx at hd
    rw [zipIdx_concat, List.mem_append, List.mem_singleton] at hd
    rcases hd with hd | hd
    · exact h.late d i hd
    · cases hd
      exact ⟨he, h.still e (hq ▸ List.mem_cons_self)⟩
  · intro f hf
    show s.clock.now ≤ f.due + failuresBefore failing (log.dispatched ++ [Dispatch.mk s.clock.now e]).length
    rw [List.length_append, List.length_singleton]
    have := h.still f (hdue f hf)
    have := hmore log.dispatched.length
    omega

theorem Delayed.now_le (h : Delayed cues failing s log) (he : e ∈ s.clock.queue) :
    s.clock.now ≤ e.due + cues.length := by
  have hstill := h.still e he
  have hcount := failuresBefore_le failing log.dispatched.length
  have hlength := congrArg List.length h.divided
  rw [List.length_append, List.length_map] at hlength
  omega

/-- The rest of a tick: a failure leaves some of what is due, and time moves on. -/
theorem Delayed.dispatch (n : Nat) (h : Delayed cues failing s log)
    (hn : (s.clock.queue.filter (·.due ≤ s.clock.now)).length ≤ n) :
    (s.dispatch Cue.script n).2.clock.now = s.clock.now ∧
    Delayed cues failing (s.dispatch Cue.script n).2
      ((log.take s.clock.now (s.dispatch Cue.script n).1.dispatched).fail
        (s.dispatch Cue.script n).1.error.toList) ∧
    ∀ e ∈ (s.dispatch Cue.script n).2.clock.queue, s.clock.now + 1 ≤ e.due +
      failuresBefore failing (log.take s.clock.now
        (s.dispatch Cue.script n).1.dispatched).dispatched.length := by
  induction n, s using Stage.dispatch_induct Cue.script generalizing log with
  | idle n s hidle hd hp =>
    have hlate := Entry.lt_due_of_idle h.sorted hn hidle
    rw [hd]
    refine ⟨rfl, ?_, ?_⟩
    · show Delayed cues failing s ((log.take s.clock.now []).fail [])
      rwa [Chronicle.take_nil, Chronicle.fail_nil]
    · intro e he
      exact Nat.le_add_right_of_le (hlate e he)
  | fails n s e rest source s' hq he hx hd hp =>
    have hnext := h.pop hq he
    have hexec := Stage.exec_cue_receive e.callback (s.pop rest)
    rw [hx] at hnext hexec
    obtain ⟨hsource, rfl⟩ := Prod.mk.inj hexec
    have hcall : failing.contains log.dispatched.length := by
      rw [Sink.receive_failure, Stage.pop, h.failing_eq, h.calls] at hsource
      by_contra hno
      rw [if_neg hno] at hsource
      cases hsource
    rw [hd]
    refine ⟨rfl, hnext, ?_⟩
    -- the call that failed pays for the tick that is lost
    intro f hf
    have hstill := h.still f (hq ▸ List.mem_cons_of_mem e hf)
    show s.clock.now + 1 ≤ f.due + failuresBefore failing
      (log.dispatched ++ [Dispatch.mk s.clock.now e]).length
    rw [List.length_append, List.length_singleton, failuresBefore_succ, if_pos hcall]
    omega
  | ends n s e rest s' hq he hx hs' hd hp =>
    have hnext := h.pop hq he
    rw [hx] at hnext
    exact absurd (hnext.running.symm.trans hs') (by decide)
  | next n s e rest s' hq he hx hs' hd hp ih =>
    have hnext := h.pop hq he
    obtain ⟨hnow, hn'⟩ := Stage.dueCount_exec Cue.script hq he hx hn
    rw [hx] at hnext
    have hrest := ih ((log.take s.clock.now [e]).fail_nil ▸ hnext) hn'
    rw [hnow] at hrest
    rw [hd, Chronicle.take_cons]
    exact hrest

theorem Delayed.tick {r : Course Cue Sink} (h : Delayed cues failing r.stage r.log) :
    (r.tick Cue.script).stage.clock.now = r.stage.clock.now + 1 ∧
      Delayed cues failing (r.tick Cue.script).stage (r.tick Cue.script).log := by
  have hn : (r.stage.clock.queue.filter (·.due ≤ r.stage.clock.now)).length ≤
      r.stage.clock.due.length :=
    Nat.le_of_eq (congrArg List.length (Entry.takeWhile_due h.sorted)).symm
  obtain ⟨hnow, hdone, hlate⟩ := h.dispatch _ hn
  rw [Course.tick_of_running h.running, Stage.advance, if_pos hdone.running]
  exact ⟨congrArg (· + 1) hnow, { hdone with still := hnow ▸ hlate }⟩

/-- Some tick is the last. -/
theorem Delayed.persist (n : Nat) {r : Course Cue Sink} (h : Delayed cues failing r.stage r.log)
    (hn : ∀ e ∈ cues, e.due + cues.length < r.stage.clock.now + n) :
    (r.persist Cue.script n).stage.clock.queue = [] ∧
      Delayed cues failing (r.persist Cue.script n).stage (r.persist Cue.script n).log := by
  induction n generalizing r with
  | zero =>
    refine ⟨List.eq_nil_iff_forall_not_mem.2 fun e he => ?_, h⟩
    have hmem : e ∈ cues := h.divided ▸ List.mem_append_right _ he
    have := h.now_le he
    have := hn e hmem
    omega
  | succ n ih =>
    rw [Course.persist]
    split
    · next hq => exact ⟨List.isEmpty_iff.1 hq, h⟩
    · obtain ⟨hnow, htick⟩ := h.tick
      refine ih htick fun e he => ?_
      have := hn e he
      omega

end

/-! ## The cues of one event -/

theorem mem_cueEntries {now first i tick : Nat} {cue : Cue} {cues : List (Nat × Cue)}
    (h : cues[i]? = some (tick, cue)) :
    ⟨now + tick, first + i, cue⟩ ∈ cueEntries now first cues := by
  refine List.mem_map.2 ⟨((tick, cue), first + i), ?_, rfl⟩
  rw [List.mk_mem_zipIdx_iff_le_and_getElem?_sub, Nat.add_sub_cancel_left]
  exact ⟨Nat.le_add_right _ _, h⟩

namespace Resolution

theorem getElem?_boundaries (r : Resolution) {events : List Event} {j : Nat} {e : Event}
    (h : events[j]? = some e) :
    (events.flatMap r.boundaries)[2 * j]? = some (r.onTick e, .on e) ∧
      (events.flatMap r.boundaries)[2 * j + 1]? = some (r.offTick e, .off e) := by
  induction events generalizing j with
  | nil => cases h
  | cons f fs ih =>
    rw [List.flatMap_cons]
    cases j with
    | zero =>
      cases h
      exact ⟨rfl, rfl⟩
    | succ j => exact ih h

/-- An event is begun before it is ended. -/
theorem begun_before_ended (r : Resolution) {events : List Event} {j : Nat} {e : Event}
    (h : events[j]? = some e) :
    ∃ on off : Nat, on < off ∧
      ((cueEntries 0 0 (events.flatMap r.boundaries)).mergeSort (·.due ≤ ·.due))[on]? =
        some ⟨r.onTick e, 2 * j, .on e⟩ ∧
      ((cueEntries 0 0 (events.flatMap r.boundaries)).mergeSort (·.due ≤ ·.due))[off]? =
        some ⟨r.offTick e, 2 * j + 1, .off e⟩ := by
  obtain ⟨hon, hoff⟩ := r.getElem?_boundaries h
  have hmem : ∀ {i tick : Nat} {cue : Cue}, (events.flatMap r.boundaries)[i]? = some (tick, cue) →
      ⟨tick, i, cue⟩ ∈
        (cueEntries 0 0 (events.flatMap r.boundaries)).mergeSort (·.due ≤ ·.due) := by
    intro i tick cue hi
    rw [(List.mergeSort_perm _ _).mem_iff, ← Nat.zero_add tick, ← Nat.zero_add i]
    exact mem_cueEntries hi
  refine Entry.exists_lt_of_before (Entry.pairwise_mergeSort_due (pairwise_cueEntries _ _ _))
    (hmem hon) (hmem hoff) ?_
  have hle := r.onTick_le_offTick e
  unfold Entry.Before
  dsimp only
  omega

end Resolution

/-! ## Whole runs -/

/-- Cues that are callbacks in their own right. -/
def Cue.player : Player Cue Sink where
  behave := Cue.script
  cue := id
  sink := id
  withSink _ s := s
  sink_withSink _ _ := rfl
  behave_cue _ := rfl

namespace Course

variable {r : Resolution} {events : List Event} {c : Clock Cue} {n : Nat}

/-- A new clock, started with the cues of some events, and a sink that fails some of its calls. -/
def begun (r : Resolution) (events : List Event) (failing : List Nat) : Course Cue Sink :=
  after Cue.script { failing } [.bind r id events, .run none]

theorem delayed_begun (h : r.bind id events .owner {} = .ok (c, n)) (failing : List Nat) :
    (begun r events failing).stage.clock.now = 0 ∧
      Delayed ((cueEntries 0 0 (events.flatMap r.boundaries)).mergeSort (·.due ≤ ·.due)) failing
        (begun r events failing).stage (begun r events failing).log := by
  obtain ⟨hstate, hnow, hsorted, hqueue, -⟩ := bind_new_eq_ok h
  have hstage : (begun r events failing).stage = ⟨{ c with state := .running }, { failing }⟩ :=
    @Player.bound_eq Cue Sink Cue.player { failing } [] r events c n h (by rw [hstate]; decide)
  obtain ⟨hdispatched, hfailures⟩ : (begun r events failing).log.dispatched = [] ∧
      (begun r events failing).log.failures = [] := by
    show (ask _ _).log.dispatched = [] ∧ (ask _ _).log.failures = []
    rw [dispatched_ask, failures_ask, move]
    split
    · rw [dispatched_ask, failures_ask]
      exact ⟨rfl, rfl⟩
    · exact ⟨rfl, rfl⟩
  rw [hstage]
  generalize (begun r events failing).log = log at hdispatched hfailures ⊢
  obtain ⟨requests, dispatched, failures⟩ := log
  cases hdispatched
  cases hfailures
  refine ⟨hnow, rfl, hsorted, hqueue, rfl, rfl, rfl, rfl, ?_, ?_⟩
  · intro d i hd
    exact absurd hd List.not_mem_nil
  · intro e _
    exact Nat.le_add_right_of_le (hnow.trans_le (Nat.zero_le _))

/-- The owner's loop ends. -/
theorem persist_begun (h : r.bind id events .owner {} = .ok (c, n)) (failing : List Nat) :
    ∃ last, (∃ N, ∀ k ≥ N, (begun r events failing).persist Cue.script k = last) ∧
      last.stage.clock.queue = [] ∧
      Delayed ((cueEntries 0 0 (events.flatMap r.boundaries)).mergeSort (·.due ≤ ·.due)) failing
        last.stage last.log := by
  obtain ⟨hnow, hdelayed⟩ := delayed_begun h failing
  generalize (cueEntries 0 0 (events.flatMap r.boundaries)).mergeSort (·.due ≤ ·.due) = cues
    at hdelayed ⊢
  have hN : ∀ e ∈ cues, e.due + cues.length <
      (begun r events failing).stage.clock.now + ((cues.map Entry.due).sum + cues.length + 1) := by
    intro e he
    have := List.le_sum_of_mem (List.mem_map_of_mem (f := Entry.due) he)
    omega
  obtain ⟨hempty, hlast⟩ := hdelayed.persist _ hN
  exact ⟨_, ⟨_, fun k hk => persist_of_le Cue.script hk hempty⟩, hempty, hlast⟩

/-- Whichever calls of a sink fail, an owner who starts a new clock and goes on after failures comes
to the end of what was bound to it.  The calls made are those of a run without failures, in the same
order, an event begun before it is ended.  Every call that fails gives one error, with the tick and
the index of its callback, and every other is kept; each is late by at most one tick for every call
that has failed before it. -/
theorem failures_only_delay (h : r.bind id events .owner {} = .ok (c, n)) (failing : List Nat) :
    ∃ clean last,
      (∃ N, ∀ k ≥ N, (begun r events []).persist Cue.script k = clean) ∧
      (∃ N, ∀ k ≥ N, (begun r events failing).persist Cue.script k = last) ∧
      clean.stage.clock.queue = [] ∧ clean.log.failures = [] ∧ last.stage.clock.queue = [] ∧
      last.log.dispatched.map Dispatch.entry = clean.log.dispatched.map Dispatch.entry ∧
      last.stage.host.calls = last.log.dispatched.length ∧
      last.stage.host.messages = callMessages failing last.log.dispatched ∧
      last.log.failures = callFailures failing last.log.dispatched ∧
      (∀ d i, (d, i) ∈ last.log.dispatched.zipIdx →
        d.entry.due ≤ d.tick ∧ d.tick ≤ d.entry.due + failuresBefore failing i) ∧
      ∀ (j : Nat) (e : Event), events[j]? = some e → ∃ on off : Nat, on < off ∧
        (last.log.dispatched.map Dispatch.entry)[on]? = some ⟨r.onTick e, 2 * j, .on e⟩ ∧
        (last.log.dispatched.map Dispatch.entry)[off]? = some ⟨r.offTick e, 2 * j + 1, .off e⟩ := by
  obtain ⟨clean, hclean, hcleaned, hsound⟩ := persist_begun h []
  obtain ⟨last, hlast, hempty, hdelayed⟩ := persist_begun h failing
  have hcalls := hdelayed.divided
  have hcleanCalls := hsound.divided
  rw [hempty, List.append_nil] at hcalls
  rw [hcleaned, List.append_nil] at hcleanCalls
  refine ⟨clean, last, hclean, hlast, hcleaned, ?_, hempty, ?_, hdelayed.calls, hdelayed.messages,
    hdelayed.failures, hdelayed.late, ?_⟩
  · rw [hsound.failures]
    simp [callFailures]
  · rw [hcalls, hcleanCalls]
  · intro j e he
    rw [hcalls]
    exact r.begun_before_ended he

/-- The second of two failures falls on a callback that the first has kept waiting. -/
theorem failures_only_delay_twice : ∃ clean last,
    (∃ N, ∀ k ≥ N, (begun Session.slowly Session.twoNotes []).persist Cue.script k = clean) ∧
    (∃ N, ∀ k ≥ N, (begun Session.slowly Session.twoNotes [1, 2]).persist Cue.script k = last) ∧
    last.log.dispatched.map Dispatch.entry = clean.log.dispatched.map Dispatch.entry ∧
    last.log.failures.map (fun f => (f.tick, f.index)) = [(2, 0), (3, 3)] := by
  have hqueued : (Session.slowly.bind id Session.twoNotes .owner {}).toOption.map Prod.snd =
      some 4 := by decide +kernel
  obtain ⟨⟨c, n⟩, hbind, -⟩ := Option.map_eq_some_iff.1 hqueued
  obtain ⟨clean, last, hclean, ⟨N, hlast⟩, -, -, -, hsame, -⟩ :=
    failures_only_delay (toOption_eq_some.1 hbind) [1, 2]
  have hempty : ((begun Session.slowly Session.twoNotes [1, 2]).persist
      Cue.script 6).stage.clock.queue = [] := List.eq_nil_of_length_eq_zero (by decide +kernel)
  have hsix : (begun Session.slowly Session.twoNotes [1, 2]).persist Cue.script 6 = last := by
    rw [← hlast (max N 6) (Nat.le_max_left _ _),
      persist_of_le Cue.script (Nat.le_max_right N 6) hempty]
  refine ⟨clean, last, hclean, ⟨N, hlast⟩, hsame, ?_⟩
  rw [← hsix]
  decide +kernel

end Course

end Stave
