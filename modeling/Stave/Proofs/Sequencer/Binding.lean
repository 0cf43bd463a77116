import Stave.Proofs.Clock.Course
import Stave.Proofs.Sequencer.Refusal
import Stave.Session

/-!
# All or nothing

A bind goes through its events twice: once for their ticks, any of which may be refused, and once to
queue their cues, with a call for each that may be refused again.  What holds the two together is
that the ticks of the first pass are never negative, not even of an event that ends before zero, so
that no call of the second pass is refused.

    r.bindEach: a bind call by call, that stops where it is refused
    the calls of the second pass are all accepted                         (queueEach_wholeTicks)
    the two passes are the bind                                           (bindEach_eq)
    a refused bind changes nothing, and is refused as the first event is;
      any other queues two cues for each event, and changes nothing else  (bind_all_or_nothing)
-/

namespace Stave

variable {κ σ : Type}

/-! ## Call by call -/

namespace Resolution

/-- The ticks on which an event begins and ends, before it is known that they are not negative. -/
def wholeTicks (r : Resolution) (e : Event) : Except TimingError (Int × Int) :=
  if e.start.isNegative then .error (.negativeStart e.start)
  else match e.stop? with
    | none => .error (.tickOverflow e.start)
    | some stop => do
      let on ← r.toTicks e.start
      let off ← r.toTicks stop
      return (on, max off on)

end Resolution

/-- Two calls for each event; the count starts at some number.  A call that is refused ends this,
with what the calls before it have queued. -/
def Clock.queueEach (callback : Cue → κ) (caller : Caller) :
    List (Event × Int × Int) → Nat → Clock κ → Except TimingError Nat × Clock κ
  | [], count, c => (.ok count, c)
  | (e, on, off) :: rest, count, c =>
    match c.answer caller (.schedule on (callback (.on e))) with
    | .error t => (.error t, c)
    | .ok (c, _) =>
      match c.answer caller (.schedule off (callback (.off e))) with
      | .error t => (.error t, c)
      | .ok (c, _) => queueEach callback caller rest (count + 2) c

/-- A bind in its two passes, with the stage that it leaves. -/
def Resolution.bindEach (r : Resolution) (callback : Cue → κ) (events : List Event) (caller : Caller)
    (s : Stage κ σ) : Except TimingError Nat × Stage κ σ :=
  match events.mapM r.wholeTicks with
  | .error t => (.error t, s)
  | .ok ticks =>
    if s.clock.state = .terminated then (.ok 0, s)
    else
      let (answer, clock) := s.clock.queueEach callback caller (events.zip ticks) 0
      (answer, { s with clock })

/-! ## The first pass -/

namespace Resolution

variable {r : Resolution}

theorem ticksOf_eq_map (r : Resolution) (e : Event) :
    r.ticksOf e = (r.wholeTicks e).map fun (on, off) => (on.toNat, off.toNat) := by
  unfold ticksOf wholeTicks
  by_cases hneg : e.start.isNegative
  · rw [if_pos hneg, if_pos hneg]
    rfl
  · rw [if_neg hneg, if_neg hneg]
    cases e.stop? with
    | none => rfl
    | some stop =>
      dsimp only
      cases r.toTicks e.start <;> cases r.toTicks stop <;> rfl

theorem wholeTicks_eq_error_iff {e : Event} {t : TimingError} :
    r.wholeTicks e = .error t ↔ r.Refuses e t := by
  rw [← ticksOf_eq_error_iff, ticksOf_eq_map]
  cases r.wholeTicks e <;> simp [Except.map]

/-- The ticks of an event that is not refused are not negative, whatever its duration. -/
theorem wholeTicks_eq_ok {e : Event} {t : Int × Int} (h : r.wholeTicks e = .ok t) :
    t = ((r.onTick e : ℤ), (r.offTick e : ℤ)) := by
  have hticks : r.ticksOf e = .ok (t.1.toNat, t.2.toNat) := by
    rw [ticksOf_eq_map, h]
    rfl
  rw [natCast_onTick hticks, natCast_offTick hticks]
  unfold wholeTicks at h
  split at h
  · cases h
  · split at h
    · cases h
    · next stop hstop =>
      obtain ⟨on, hon, h⟩ := bind_eq_ok h
      obtain ⟨off, hoff, rfl⟩ := bind_pure_eq_ok h
      have hend : stop.toRat = e.start.toRat + e.duration.toRat := Ratio.add?_eq_some_iff.1 hstop
      rw [toTicks_eq_ok hon, toTicks_eq_ok hoff, hend]

/-- What the first pass hands to the second. -/
theorem zip_wholeTicks {events : List Event} {ticks : List (Int × Int)}
    (h : events.mapM r.wholeTicks = .ok ticks) :
    events.zip ticks = events.map fun e => (e, (r.onTick e : ℤ), (r.offTick e : ℤ)) := by
  obtain ⟨rfl, -⟩ := mapM_eq_map (fun e t => wholeTicks_eq_ok) h
  conv_lhs => rw [← List.map_id events, List.map_map]
  exact List.zip_map'

end Resolution

/-! ## The second pass -/

namespace Clock

@[simp] theorem state_enqueue (c : Clock κ) (caller : Caller) (offset : ℕ) (callback : κ) :
    (c.enqueue caller offset callback).state = c.state := rfl

theorem answer_schedule_natCast (c : Clock κ) (caller : Caller) (offset : ℕ) (callback : κ) :
    c.answer caller (.schedule offset callback) =
      if c.state = .terminated then .ok (c, 0) else .ok (c.enqueue caller offset callback, 1) := by
  rw [answer, if_neg (by omega), Int.toNat_natCast]

/-- No call of the second pass is refused, and together they queue all cues, or none on a clock that
has been terminated. -/
theorem queueEach_wholeTicks (r : Resolution) (callback : Cue → κ) (caller : Caller)
    (events : List Event) (count : ℕ) (c : Clock κ) :
    c.queueEach callback caller
      (events.map fun e => (e, (r.onTick e : ℤ), (r.offTick e : ℤ))) count =
      (.ok (count + 2 * events.length),
        if c.state = .terminated then c
        else c.enqueueAll caller
          ((events.flatMap r.boundaries).map fun (tick, cue) => (tick, callback cue))) := by
  induction events generalizing count c with
  | nil =>
    rw [List.map_nil, queueEach]
    split <;> rfl
  | cons e es ih =>
    have hcount : count + 2 + 2 * es.length = count + 2 * (es.length + 1) := by omega
    rw [List.map_cons, queueEach, answer_schedule_natCast]
    by_cases hs : c.state = .terminated
    · rw [if_pos hs, if_pos hs]
      dsimp only
      rw [answer_schedule_natCast, if_pos hs]
      dsimp only
      rw [ih, if_pos hs, List.length_cons, hcount]
    · rw [if_neg hs, if_neg hs]
      dsimp only
      rw [answer_schedule_natCast, state_enqueue, if_neg hs]
      dsimp only
      rw [ih, state_enqueue, state_enqueue, if_neg hs, List.length_cons, hcount]
      rfl

end Clock

namespace Resolution

variable {r : Resolution}

/-- Events that are not refused have cues. -/
theorem cues_of_wholeTicks {events : List Event} {ticks : List (Int × Int)} (callback : Cue → κ)
    (h : events.mapM r.wholeTicks = .ok ticks) : r.cues callback events =
      .ok ((events.flatMap r.boundaries).map fun (tick, cue) => (tick, callback cue)) := by
  cases hcues : r.cues callback events with
  | ok callbacks => rw [(cues_eq_ok hcues).1]
  | error t =>
    have hrefused := (mapM_eq_error_iff_firstRefused fun e t => ticksOf_eq_error_iff).1
      (bind_pure_eq_error hcues)
    rw [(mapM_eq_error_iff_firstRefused fun e t => wholeTicks_eq_error_iff).2 hrefused] at h
    cases h

/-- The two passes are the bind. -/
theorem bindEach_eq (r : Resolution) (callback : Cue → κ) (events : List Event) (caller : Caller)
    (s : Stage κ σ) : r.bindEach callback events caller s =
      match r.bind callback events caller s.clock with
      | .error t => (.error t, s)
      | .ok (clock, queued) => (.ok queued, { s with clock }) := by
  unfold bindEach
  cases hticks : events.mapM r.wholeTicks with
  | error t =>
    have hrefused := (mapM_eq_error_iff_firstRefused fun e t => wholeTicks_eq_error_iff).1 hticks
    rw [bind_eq_error_iff.2 hrefused]
  | ok ticks =>
    dsimp only
    rw [bind, cues_of_wholeTicks callback hticks, zip_wholeTicks hticks,
      Clock.queueEach_wholeTicks, Nat.zero_add]
    show _ = match s.clock.answer caller (.scheduleAll _) with
      | .error t => _
      | .ok (clock, queued) => _
    rw [Clock.answer]
    by_cases hs : s.clock.state = .terminated
    · rw [if_pos hs, if_pos hs]
    · rw [if_neg hs, if_neg hs, if_neg hs, List.length_map, length_boundaries]

end Resolution

/-! ## In a session -/

namespace Session

theorem cuesOf_of_build {ticksPerBeat : UInt32} {r : Resolution}
    (h : Resolution.build ticksPerBeat = .ok r) (events : List Event) :
    cuesOf ticksPerBeat events = r.cues .cue events := by
  rw [cuesOf, h]
  rfl

/-- A callback that binds goes through the two passes, and fails with what they are refused for. -/
theorem exec_bind (ticksPerBeat : UInt32) (events : List Event) (next : Work) (s : State) :
    ((Command.bind ticksPerBeat events).script next).exec s =
      match Resolution.build ticksPerBeat with
      | .error t => (some t.message, s)
      | .ok r =>
        match r.bindEach .cue events .callback s with
        | (.error t, s) => (some t.message, s)
        | (.ok queued, s) => (remark (fun _ => .count queued) next).exec s := by
  cases hbuild : Resolution.build ticksPerBeat with
  | error t =>
    rw [Command.script, cuesOf, hbuild]
    rfl
  | ok r =>
    dsimp only
    rw [Command.script, cuesOf_of_build hbuild, Resolution.bindEach_eq, Resolution.bind]
    cases r.cues Callback.cue events with
    | error t => rfl
    | ok cues =>
      dsimp only [insist, bind, Except.bind]
      rw [Script.exec]
      cases s.clock.answer .callback (.scheduleAll cues) <;> rfl

/-- So does the owner. -/
theorem perform_bind (ticksPerBeat : UInt32) (events : List Event) (s : State) :
    (Operation.bind ticksPerBeat events).perform s =
      match Resolution.build ticksPerBeat with
      | .error t => (.refused t, s)
      | .ok r =>
        match r.bindEach .cue events .owner s with
        | (.error t, s) => (.refused t, s)
        | (.ok queued, s) => (.bound queued, s) := by
  cases hbuild : Resolution.build ticksPerBeat with
  | error t =>
    rw [Operation.perform, cuesOf, hbuild]
    rfl
  | ok r =>
    dsimp only
    rw [Operation.perform, cuesOf_of_build hbuild, Resolution.bindEach_eq, Resolution.bind]
    cases r.cues Callback.cue events with
    | error t => rfl
    | ok cues =>
      dsimp only [ask, Stage.call, bind, Except.bind]
      cases s.clock.answer .owner (.scheduleAll cues) <;> rfl

end Session

/-! ## All or nothing -/

/-- A clock that callbacks have joined, each with the next index, due when they were asked for; all
else is as it was. -/
structure Clock.Joined (c : Clock κ) (caller : Caller) (callbacks : List (ℕ × κ)) (c' : Clock κ) :
    Prop where
  now : c'.now = c.now
  state : c'.state = c.state
  nextIndex : c'.nextIndex = c.nextIndex + callbacks.length
  queue : ∃ added : List (Entry κ), c'.queue.Perm (c.queue ++ added) ∧
    added.map Entry.index = List.range' c.nextIndex callbacks.length ∧
    added.map (fun e => (e.due, e.callback)) =
      callbacks.map fun (offset, callback) => (c.now + max offset caller.lead, callback)

theorem Clock.joined_enqueueAll (c : Clock κ) (caller : Caller) (callbacks : List (ℕ × κ)) :
    c.Joined caller callbacks (c.enqueueAll caller callbacks) := by
  obtain ⟨hnow, hstate, hindex, hqueue⟩ := c.enqueueAll_spec caller callbacks
  exact ⟨hnow, hstate, hindex, _, hqueue, c.map_index_requests caller callbacks,
    c.map_due_requests caller callbacks⟩

/-- A bind, by the owner or in a callback, is all or nothing.  It is refused for what the first event
is refused for that is, and then neither the clock nor the host has changed.  Otherwise all calls of
the second pass are accepted; the host has not changed, and the clock has got two callbacks for each
event, with the next indices, and nothing else, or nothing at all if it was terminated. -/
theorem Resolution.bind_all_or_nothing (r : Resolution) (callback : Cue → κ) (events : List Event)
    (caller : Caller) (s : Stage κ σ) :
    (∀ t, (r.bindEach callback events caller s).1 = .error t ↔ r.FirstRefused events t) ∧
    (∀ t, (r.bindEach callback events caller s).1 = .error t →
      (r.bindEach callback events caller s).2 = s ∧
      r.bind callback events caller s.clock = .error t) ∧
    (∀ ticks, events.mapM r.wholeTicks = .ok ticks →
      (s.clock.queueEach callback caller (events.zip ticks) 0).1 = .ok (2 * events.length)) ∧
    ∀ k, (r.bindEach callback events caller s).1 = .ok k →
      r.bind callback events caller s.clock =
        .ok ((r.bindEach callback events caller s).2.clock, k) ∧
      (r.bindEach callback events caller s).2.host = s.host ∧
      (s.clock.state = .terminated ∧ k = 0 ∧ (r.bindEach callback events caller s).2 = s ∨
        s.clock.state ≠ .terminated ∧ k = 2 * events.length ∧
          s.clock.Joined caller
            ((events.flatMap r.boundaries).map fun (tick, cue) => (tick, callback cue))
            (r.bindEach callback events caller s).2.clock) := by
  have hrefused : ∀ t, (r.bindEach callback events caller s).1 = .error t ↔
      r.bind callback events caller s.clock = .error t := by
    intro t
    rw [bindEach_eq]
    cases r.bind callback events caller s.clock <;> simp
  refine ⟨fun t => (hrefused t).trans bind_eq_error_iff, fun t ht => ⟨?_, (hrefused t).1 ht⟩,
    fun ticks hticks => ?_, fun k hk => ?_⟩
  · rw [bindEach_eq, (hrefused t).1 ht]
  · rw [zip_wholeTicks hticks, Clock.queueEach_wholeTicks, Nat.zero_add]
  · rw [bindEach_eq] at hk ⊢
    cases hbind : r.bind callback events caller s.clock with
    | error t =>
      rw [hbind] at hk
      cases hk
    | ok p =>
      obtain ⟨clock, queued⟩ := p
      rw [hbind] at hk
      cases hk
      refine ⟨rfl, rfl, ?_⟩
      by_cases hs : s.clock.state = .terminated
      · obtain ⟨callbacks, -, hanswer⟩ := bind_eq_ok hbind
        rw [Clock.answer, if_pos hs] at hanswer
        cases hanswer
        exact .inl ⟨hs, rfl, rfl⟩
      · obtain ⟨rfl, rfl, -⟩ := bound_of_bind hs hbind
        exact .inr ⟨hs, rfl, s.clock.joined_enqueueAll caller _⟩

end Stave
