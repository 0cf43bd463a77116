import Stave.Proofs.Sequencer.Player
import Stave.Proofs.Sequencer.Ticks

/-!
# What a bind delivers

The messages of bound events reach the sink each on its own tick, in the order of a stable sort of
their beginnings and ends, whatever else is queued, as long as none of it fails, ends the clock or
uses the sink.

    a bind queues two cues for each event, and after k ticks the sink has
      received those messages of r.playback now events that are due       (bind_delivers)
-/

namespace Stave

variable {κ σ : Type}

/-- The messages of some events bound at a tick. -/
def Resolution.playback (r : Resolution) (now : Nat) (events : List Event) : List Message :=
  (events.flatMap fun e =>
    [.noteOn (now + r.onTick e) e.pitch e.velocity,
      .noteOff (now + r.offTick e) e.pitch]).mergeSort (·.tick ≤ ·.tick)

/-! ## The entries of a bind -/

/-- Cues numbered from an index, each due some ticks from now. -/
def cueEntries (now first : Nat) (cues : List (Nat × Cue)) : List (Entry Cue) :=
  (cues.zipIdx first).map fun ((tick, cue), index) => ⟨now + tick, index, cue⟩

theorem map_cueEntries (c : Clock κ) (callback : Cue → κ) (cues : List (Nat × Cue)) :
    (c.requests .owner (cues.map fun (tick, cue) => (tick, callback cue))).map Request.entry =
      (cueEntries c.now c.nextIndex cues).map (Entry.map callback) := by
  rw [Clock.requests, cueEntries, List.zipIdx_map, List.map_map, List.map_map, List.map_map]
  rfl

theorem map_index_cueEntries (now first : Nat) (cues : List (Nat × Cue)) :
    (cueEntries now first cues).map Entry.index = List.range' first cues.length := by
  rw [cueEntries, List.map_map, ← List.zipIdx_map_snd first cues]
  rfl

theorem pairwise_cueEntries (now first : Nat) (cues : List (Nat × Cue)) :
    (cueEntries now first cues).Pairwise (·.index < ·.index) := by
  have h := List.pairwise_lt_range' (s := first) (n := cues.length)
  rw [← map_index_cueEntries now first cues] at h
  exact List.pairwise_map.1 h

theorem map_message_cueEntries (now first : Nat) (cues : List (Nat × Cue)) :
    (cueEntries now first cues).map Entry.message =
      cues.map fun (tick, cue) => cue.message (now + tick) := by
  conv_rhs => rw [← List.zipIdx_map_fst first cues]
  rw [cueEntries, List.map_map, List.map_map]
  rfl

theorem tick_message (c : Cue) (now : Nat) : (c.message now).tick = now := by
  cases c <;> rfl

/-- Sorting the cues by due tick is sorting their messages. -/
theorem Resolution.playback_eq (r : Resolution) (now first : Nat) (events : List Event) :
    r.playback now events =
      ((cueEntries now first (events.flatMap r.boundaries)).mergeSort (·.due ≤ ·.due)).map
        Entry.message := by
  rw [List.map_mergeSort (s := (·.tick ≤ ·.tick)), map_message_cueEntries, List.map_flatMap]
  · rfl
  · intro a _ b _
    rw [Entry.message, Entry.message, tick_message, tick_message]

theorem map_message_filter (left : List (Entry Cue)) (t : Nat) :
    (left.filter (·.due < t)).map Entry.message =
      (left.map Entry.message).filter (·.tick < t) := by
  rw [List.filter_map]
  congr 1
  apply List.filter_congr
  intro x _
  rw [Function.comp_apply, Entry.message, tick_message]

/-! ## The clock after a bind -/

namespace Player

variable {P : Player κ σ}

/-- A running clock awaits the cues that have been bound to it. -/
theorem awaits_bound {c : Clock κ} {host : σ} (cues : List (Nat × Cue)) (hc : c.Sound)
    (hreliable : (P.sink host).Reliable) :
    P.Awaits c.nextIndex (c.nextIndex + cues.length)
      ((cueEntries c.now c.nextIndex cues).mergeSort (·.due ≤ ·.due))
      ⟨{ c.enqueueAll .owner (cues.map fun (tick, cue) => (tick, P.cue cue)) with
        state := .running }, host⟩ := by
  have hsound : (c.enqueueAll .owner (cues.map fun (tick, cue) => (tick, P.cue cue))).Sound :=
    hc.enqueueAll .owner _
  obtain ⟨hnow, -, hindex, -⟩ :=
    c.enqueueAll_spec .owner (cues.map fun (tick, cue) => (tick, P.cue cue))
  rw [List.length_map] at hindex
  refine ⟨⟨hsound.sorted, hsound.numbered⟩, rfl, hindex.ge, ?_, ?_, hreliable⟩
  · have hperm := hc.filter_enqueueAll .owner (cues.map fun (tick, cue) => (tick, P.cue cue))
    rw [List.length_map, map_cueEntries] at hperm
    have hsorted : ((cueEntries c.now c.nextIndex cues).mergeSort (·.due ≤ ·.due)).Pairwise
        Entry.Before := Entry.pairwise_mergeSort_due (pairwise_cueEntries _ _ _)
    exact Entry.eq_of_perm (hsound.sorted.filter _) (List.pairwise_map.2 hsorted)
      (hperm.trans ((List.mergeSort_perm _ _).map _).symm)
  · intro x hx
    have hmem := (List.mergeSort_perm _ _).mem_iff.1 hx
    obtain ⟨⟨⟨tick, cue⟩, index⟩, -, rfl⟩ := List.mem_map.1 hmem
    show (c.enqueueAll _ _).now ≤ c.now + tick
    rw [hnow]
    exact Nat.le_add_right _ _

/-- A stage on which the owner has made some moves. -/
def stage (P : Player κ σ) (host : σ) (moves : List (Move κ)) : Stage κ σ :=
  (Course.after P.behave host moves).stage

/-- The same stage with some events bound and the clock started. -/
def bound (P : Player κ σ) (host : σ) (moves : List (Move κ)) (r : Resolution)
    (events : List Event) : Stage κ σ :=
  P.stage host (moves ++ [.bind r P.cue events, .run none])

theorem bound_eq {host : σ} {moves : List (Move κ)} {r : Resolution} {events : List Event}
    {c : Clock κ} {queued : Nat}
    (hbind : r.bind P.cue events .owner (P.stage host moves).clock = .ok (c, queued))
    (hc : c.state ≠ .terminated) :
    P.bound host moves r events = ⟨{ c with state := .running }, (P.stage host moves).host⟩ := by
  have hstage : (Course.move P.behave (Course.after P.behave host moves)
      (.bind r P.cue events)).stage = ⟨c, (P.stage host moves).host⟩ := by
    rw [stage] at hbind
    rw [Course.stage_bind, hbind]
    rfl
  have hrun := Course.stage_run (Course.move P.behave (Course.after P.behave host moves)
    (.bind r P.cue events)) (by rw [hstage]; exact hc)
  rw [hstage] at hrun
  rw [bound, stage, Course.after_append]
  exact hrun

/-! ## Delivery -/

variable {host : σ} {moves : List (Move κ)} {r : Resolution} {events : List Event}

/-- A bind that is not refused on a clock that has not ended queues two cues for each event, on the
ticks that exact arithmetic gives; then ticks deliver the messages that are due before they end, and
all of them once the queue is empty, if no callback but the cues fails, ends the clock or uses the
sink. -/
theorem bind_delivers {c : Clock κ} {queued : Nat} (k : Nat)
    (hstate : (P.stage host moves).clock.state ≠ .terminated)
    (hreliable : (P.sink (P.stage host moves).host).Reliable)
    (hbind : r.bind P.cue events .owner (P.stage host moves).clock = .ok (c, queued))
    (hothers : ∀ p ∈ (P.bound host moves r events).performed P.behave k,
      ¬ ((P.stage host moves).clock.nextIndex ≤ p.1.index ∧
        p.1.index < (P.stage host moves).clock.nextIndex + queued) →
      P.Harmless p.1.callback p.2) :
    queued = 2 * events.length ∧
    (∀ e ∈ events, (r.onTick e : ℤ) = ⌊e.start.toRat * r.ticksPerBeat.toNat⌋ ∧
      (r.offTick e : ℤ) = max ⌊(e.start.toRat + e.duration.toRat) * r.ticksPerBeat.toNat⌋
        ⌊e.start.toRat * r.ticksPerBeat.toNat⌋) ∧
    (P.sink ((P.bound host moves r events).ticks P.behave k).host).messages =
      (P.sink (P.stage host moves).host).messages ++
        (r.playback (P.stage host moves).clock.now events).filter
          (·.tick < (P.stage host moves).clock.now + k) ∧
    (((P.bound host moves r events).ticks P.behave k).clock.queue = [] →
      (P.sink ((P.bound host moves r events).ticks P.behave k).host).messages =
        (P.sink (P.stage host moves).host).messages ++
          r.playback (P.stage host moves).clock.now events) := by
  obtain ⟨callbacks, hcues, hanswer⟩ := bind_eq_ok hbind
  obtain ⟨rfl, hevents⟩ := Resolution.cues_eq_ok hcues
  rw [Clock.answer, if_neg hstate] at hanswer
  obtain ⟨rfl, rfl⟩ := Prod.mk.inj (Except.ok.inj hanswer)
  have hqueued : ((events.flatMap r.boundaries).map fun (tick, cue) => (tick, P.cue cue)).length =
      2 * events.length := by
    rw [List.length_map, Resolution.length_boundaries]
  refine ⟨hqueued, ?_, ?_⟩
  · intro e he
    obtain ⟨t, ht⟩ := hevents e he
    exact ⟨Resolution.natCast_onTick ht, Resolution.natCast_offTick ht⟩
  have hsound : (P.stage host moves).clock.Sound := (Course.orderly_after P.behave host moves).sound
  have hawaits := awaits_bound (P := P) (events.flatMap r.boundaries) hsound hreliable
  obtain ⟨hclock, hkept, -⟩ := (P.stage host moves).clock.enqueueAll_spec .owner
    ((events.flatMap r.boundaries).map fun (tick, cue) => (tick, P.cue cue))
  have hbound := bound_eq hbind (by rw [hkept]; exact hstate)
  rw [List.length_map] at hothers
  rw [← hbound] at hawaits
  obtain ⟨hleft, hmessages⟩ := hawaits.ticks k hothers
  have hnow : (P.bound host moves r events).clock.now = (P.stage host moves).clock.now := by
    rw [hbound]
    exact hclock
  have hhost : (P.bound host moves r events).host = (P.stage host moves).host := by rw [hbound]
  rw [hnow] at hleft hmessages
  rw [hhost] at hmessages
  constructor
  · rw [hmessages, map_message_filter, ← Resolution.playback_eq]
  · intro hempty
    rw [hmessages, hleft.all_sent hempty, ← Resolution.playback_eq]

end Player

/-! ## Other callbacks in the queue -/

namespace Session

/-- Two ticks to the beat. -/
def slowly : Resolution := ⟨2, by decide⟩

/-- A callback that does nothing but write in the log. -/
def Callback.isLog : Callback → Bool
  | .action [.log _] => true
  | _ => false

theorem harmless_of_isLog {callback : Callback} (h : callback.isLog = true) {s : State}
    (hs : s.clock.state ≠ .terminated) : player.Harmless callback s := by
  unfold Callback.isLog at h
  split at h
  · exact ⟨rfl, hs, rfl⟩
  · cases h

def logOnce : List (Move Callback) := [.schedule 1 (.action [.log "beat"])]

def twoNotes : List Event := [⟨64, 1, 1, 96, .normal⟩, ⟨60, 0, 1, 96, .normal⟩]

/-- Beside a callback that writes in the log, five ticks deliver two notes. -/
theorem bind_delivers_beside_log :
    (player.sink ((player.bound {} logOnce slowly twoNotes).ticks behave 5).host).messages =
      slowly.playback 0 twoNotes := by
  have hqueued : (slowly.bind player.cue twoNotes .owner (player.stage {} logOnce).clock).toOption.map
      Prod.snd = some 4 := by decide +kernel
  have hperformed : ((player.bound {} logOnce slowly twoNotes).performed behave 5).all (fun p =>
      decide (1 ≤ p.1.index ∧ p.1.index < 1 + 4) ||
        p.1.callback.isLog && decide (p.2.clock.state ≠ .terminated)) = true := by decide +kernel
  have hempty : ((player.bound {} logOnce slowly twoNotes).ticks behave 5).clock.queue.length = 0 := by
    decide +kernel
  cases hbind : slowly.bind player.cue twoNotes .owner (player.stage {} logOnce).clock with
  | error e =>
    rw [hbind] at hqueued
    cases hqueued
  | ok p =>
    obtain ⟨c, queued⟩ := p
    rw [hbind] at hqueued
    cases hqueued
    refine (Player.bind_delivers 5 (by decide) (fun n hn => absurd hn List.not_mem_nil) hbind ?_).2.2.2
      (List.eq_nil_of_length_eq_zero hempty)
    intro p hp hout
    have h := List.all_eq_true.1 hperformed p hp
    rw [Bool.or_eq_true, Bool.and_eq_true, decide_eq_true_eq, decide_eq_true_eq] at h
    obtain ⟨hlog, hgoes⟩ := h.resolve_left hout
    exact harmless_of_isLog hlog hgoes

/-- A callback that leaves the ending of the clock to one that it queues. -/
def endLater : List (Move Callback) := [.schedule 0 (.action [.schedule 0 [.terminate]])]

def lateNote : List Event := [⟨60, 1, 1, 96, .normal⟩]

theorem harmless_endLater {s : State} (hs : s.clock.state = .running) :
    player.Harmless (.action [.schedule 0 [.terminate]]) s := by
  have hanswer : s.clock.answer .callback (.schedule 0 (.action [.terminate])) =
      .ok (s.clock.enqueue .callback 0 (.action [.terminate]), 1) := by
    rw [Clock.answer, if_neg (by decide), if_neg (by rw [hs]; decide)]
    rfl
  have hexec : (player.behave (.action [.schedule 0 [.terminate]])).exec s =
      (none, { s with clock := s.clock.enqueue .callback 0 (.action [.terminate]) }) := by
    show (Script.call (.schedule 0 (.action [.terminate])) _).exec s = _
    rw [Script.exec, hanswer]
    rfl
  refine ⟨congrArg Prod.fst hexec, ?_, congrArg (fun r => player.sink r.2.host) hexec⟩
  rw [hexec]
  show s.clock.state ≠ .terminated
  rw [hs]
  decide

/-- It is not enough that the callbacks already queued are harmless: what they queue may end the
clock before the first note is due. -/
theorem bind_cut_short :
    (player.stage {} endLater).clock.state ≠ .terminated ∧
    (player.sink (player.stage {} endLater).host).Reliable ∧
    (∀ e ∈ (player.stage {} endLater).clock.queue, ∀ s : State, s.clock.state = .running →
      player.Harmless e.callback s) ∧
    (slowly.bind player.cue lateNote .owner (player.stage {} endLater).clock).toOption.map
      Prod.snd = some 2 ∧
    ((player.bound {} endLater slowly lateNote).ticks behave 5).clock.queue = [] ∧
    (player.sink ((player.bound {} endLater slowly lateNote).ticks behave 5).host).messages ≠
      (player.sink (player.stage {} endLater).host).messages ++
        slowly.playback (player.stage {} endLater).clock.now lateNote := by
  refine ⟨by decide, fun n hn => absurd hn List.not_mem_nil, ?_, by decide +kernel, ?_, ?_⟩
  · intro e he s hs
    have he' : e = ⟨0, 0, .action [.schedule 0 [.terminate]]⟩ := List.mem_singleton.1 he
    rw [he']
    exact harmless_endLater hs
  · exact List.eq_nil_of_length_eq_zero (by decide +kernel)
  · intro h
    have hnone : (player.sink
        ((player.bound {} endLater slowly lateNote).ticks behave 5).host).messages.length = 0 := by
      decide +kernel
    rw [h, List.length_append, Resolution.playback, List.length_mergeSort] at hnone
    cases hnone

end Session

end Stave
