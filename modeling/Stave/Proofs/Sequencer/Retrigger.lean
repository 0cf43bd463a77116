import Stave.Proofs.Clock.Runs
import Stave.Proofs.Score.Join
import Stave.Proofs.Sequencer.Delay

/-!
# Release before retrigger

Where one note ends on the tick on which another begins, the end is sent first: so that a pitch that
is struck again has been let go.  Nothing but the indices of the cues decides that, and they are in
the right order because the events are: a note that takes at least one tick begins on an earlier tick
than the note that begins on its last, so it stands before it.

    a note that ends where another begins stands before it                (lt_of_meets)
    a cue of a bind is in the queue that the bind leaves                  (mem_queue_bind)
    in any course the end is sent before the beginning, and the
      beginning not without the end                                       (release_before_retrigger)
-/

namespace Stave

variable {κ σ : Type}

/-! ## Events in order of start -/

namespace Resolution

variable {r : Resolution} {events : List Event} {i j : ℕ} {e f : Event}

/-- Rounding down keeps the order. -/
theorem onTick_mono (r : Resolution) (h : e.start ≤ f.start) : r.onTick e ≤ r.onTick f :=
  Int.toNat_le_toNat (r.tickAt_mono (Ratio.toRat_le_toRat.2 h))

theorem lt_of_meets (hsorted : events.Pairwise fun e f => e.start ≤ f.start)
    (he : events[i]? = some e) (hf : events[j]? = some f) (hspans : r.onTick e < r.offTick e)
    (hmeets : r.offTick e = r.onTick f) : i < j := by
  obtain ⟨hi, rfl⟩ := List.getElem?_eq_some_iff.1 he
  obtain ⟨hj, rfl⟩ := List.getElem?_eq_some_iff.1 hf
  by_contra hle
  have hback : r.onTick events[j] ≤ r.onTick events[i] := by
    rcases Nat.eq_or_lt_of_le (Nat.le_of_not_lt hle) with rfl | hlt
    · exact le_refl _
    · exact r.onTick_mono (List.pairwise_iff_getElem.1 hsorted j i hj hi hlt)
  omega

end Resolution

/-! ## Cues in a course -/

namespace Player

variable {P : Player κ σ} {host : σ} {moves : List (Move κ)} {r : Resolution} {events : List Event}
  {c : Clock κ} {queued : ℕ}

/-- A cue of a bind is in the queue that the bind leaves. -/
theorem mem_queue_bind {i tick : ℕ} {cue : Cue}
    (hstate : (P.stage host moves).clock.state ≠ .terminated)
    (hbind : r.bind P.cue events .owner (P.stage host moves).clock = .ok (c, queued))
    (hi : (events.flatMap r.boundaries)[i]? = some (tick, cue)) :
    ⟨(P.stage host moves).clock.now + tick, (P.stage host moves).clock.nextIndex + i, P.cue cue⟩ ∈
      c.queue := by
  obtain ⟨rfl, -, -⟩ := Resolution.bound_of_bind hstate hbind
  obtain ⟨-, -, -, hqueue⟩ := (P.stage host moves).clock.enqueueAll_spec .owner _
  refine hqueue.mem_iff.2 ?_
  rw [map_cueEntries]
  exact List.mem_append_right _ (List.mem_map_of_mem (f := Entry.map P.cue) (mem_cueEntries hi))

theorem clock_after_bind
    (hbind : r.bind P.cue events .owner (P.stage host moves).clock = .ok (c, queued)) :
    (Course.after P.behave host (moves ++ [.bind r P.cue events])).stage.clock = c := by
  rw [stage] at hbind
  rw [Course.after_append, List.foldl_cons, List.foldl_nil, Course.stage_bind, hbind]

/-- Of events in order of start that are bound to a clock that goes on, let one take at least a tick
and end on the tick on which another begins.  Whatever was done with the clock before and is done
after, and whatever calls of the sink fail, the end of the one is sent before the beginning of the
other, and the beginning is not sent unless the end has been. -/
theorem release_before_retrigger {i j : ℕ} {e f : Event}
    (hsorted : events.Pairwise fun e f => e.start ≤ f.start)
    (hstate : (P.stage host moves).clock.state ≠ .terminated)
    (hbind : r.bind P.cue events .owner (P.stage host moves).clock = .ok (c, queued))
    (he : events[i]? = some e) (hf : events[j]? = some f)
    (hspans : r.onTick e < r.offTick e) (hmeets : r.offTick e = r.onTick f)
    (more : List (Move κ)) :
    ∃ off on : Entry κ,
      off = ⟨(P.stage host moves).clock.now + r.offTick e,
        (P.stage host moves).clock.nextIndex + (2 * i + 1), P.cue (.off e)⟩ ∧
      on = ⟨(P.stage host moves).clock.now + r.onTick f,
        (P.stage host moves).clock.nextIndex + 2 * j, P.cue (.on f)⟩ ∧
      off ∈ c.queue ∧ on ∈ c.queue ∧
      (∀ s, P.Sends off.callback s (.noteOff s.clock.now e.pitch)) ∧
      (∀ s, P.Sends on.callback s (.noteOn s.clock.now f.pitch f.velocity)) ∧
      Course.Precedes off on
        (Course.history P.behave host (moves ++ .bind r P.cue events :: more)) := by
  have hoff := mem_queue_bind hstate hbind (r.getElem?_boundaries he).2
  have hon := mem_queue_bind hstate hbind (r.getElem?_boundaries hf).1
  have hij := r.lt_of_meets hsorted he hf hspans hmeets
  refine ⟨_, _, rfl, rfl, hoff, hon, P.sends_cue _, P.sends_cue _, ?_⟩
  rw [← clock_after_bind hbind] at hoff hon
  -- both are due on one tick, so their places among the events decide
  have hruns := Course.precedes_of_before (.inr ⟨by dsimp only; rw [hmeets], by dsimp only; omega⟩)
    hoff hon more
  rw [List.append_assoc, List.singleton_append] at hruns
  exact hruns

end Player

namespace Session

/-- So many thirds of a beat. -/
def third (n : Int) : Ratio := (Ratio.ofQuotient? n 3).getD 0

/-- One pitch struck three times in two beats. -/
def thirds : List Event :=
  [⟨60, third 0, third 2, 96, .normal⟩, ⟨60, third 2, third 2, 96, .normal⟩,
    ⟨60, third 4, third 2, 96, .normal⟩]

/-- Two ticks with the first call of the sink failing. -/
def struck : List (Entry Callback × State) :=
  Course.history player.behave { sink := { failing := [0] } }
    [.bind slowly player.cue thirds, .run none, .tick, .tick]

/-- At two ticks to the beat the first note ends, and the second begins, on the tick after the first
beginning, which the sink does not take. -/
theorem release_before_retrigger_thirds : ∃ score,
    Score.read "(0 0 0)@2".toList = .ok score ∧
    Score.decode Score.plainSetting 0 score = .ok thirds ∧
    ∃ (off on : Entry Callback) (a : ℕ) (s t : State), off.due = 1 ∧ on.due = 1 ∧ a < 2 ∧
      struck[a]? = some (off, s) ∧ struck[2]? = some (on, t) ∧
      player.Sends off.callback s (.noteOff s.clock.now 60) ∧
      player.Sends on.callback t (.noteOn t.clock.now 60 96) := by
  have hplays : ((Score.read "(0 0 0)@2".toList).toOption.bind fun score =>
      (Score.playSequence Score.plainSetting 0 1 score).toOption.map fun p => p.events) =
        some thirds := by
    decide +kernel
  obtain ⟨score, hread, hplays⟩ := Option.bind_eq_some_iff.1 hplays
  obtain ⟨p, hp, hevents⟩ := Option.map_eq_some_iff.1 hplays
  have hinOrder : thirds.Pairwise fun e f => e.start ≤ f.start := by decide +kernel
  have hdecode : Score.decode Score.plainSetting 0 score = .ok thirds := by
    rw [← hevents] at hinOrder ⊢
    exact Score.decode_of_sorted (toOption_eq_some.1 hp) hinOrder
  have hqueued : (slowly.bind player.cue thirds .owner
      (player.stage { sink := { failing := [0] } } []).clock).toOption.map Prod.snd = some 6 := by
    decide +kernel
  obtain ⟨⟨c, queued⟩, hbind, -⟩ := Option.map_eq_some_iff.1 hqueued
  obtain ⟨off, on, hoff, hon, -, -, hends, hbegins, hprecedes⟩ :=
    @Player.release_before_retrigger Callback Host player { sink := { failing := [0] } } [] slowly
      thirds c queued 0 1 _ _ (Score.pairwise_decode hdecode) (by decide)
      (toOption_eq_some.1 hbind) rfl rfl (by decide +kernel) (by decide +kernel)
      [.run none, .tick, .tick]
  have hoffDue : off.due = 1 := (congrArg Entry.due hoff).trans (by decide +kernel)
  have honDue : on.due = 1 := (congrArg Entry.due hon).trans (by decide +kernel)
  have hran : (struck[2]?).map Prod.fst = some on := by
    rw [hon] at honDue ⊢
    exact congrArg (fun due => some (Entry.mk due 2 _)) honDue.symm
  obtain ⟨⟨ran, t⟩, ht, hsame⟩ := Option.map_eq_some_iff.1 hran
  obtain rfl : ran = on := hsame
  obtain ⟨a, s, ha, hs⟩ := hprecedes.led 2 t ht
  exact ⟨score, toOption_eq_some.1 hread, hdecode, off, ran, a, s, t, hoffDue, honDue, ha, hs, ht,
    hends s, hbegins t⟩

end Session

end Stave
