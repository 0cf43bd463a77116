import Stave.Proofs.Clock.Order

/-!
# What is run before what

The history of a course is the list of all callbacks that its ticks have run, each with the stage on
which it ran.  Of two callbacks that were in the queue together, the one due first, or queued first
for the same tick, has run before the other whenever that one has run: whatever has failed and
whatever has been queued meanwhile, and even if the clock was ended.

    what is dispatched is what is in the history                          (dispatched_after)
    Led a b: b is not run before a                                        (Led.stable, Led.pop)
    a.Before b, both in the queue → a precedes b in all that can follow   (precedes_of_before)
-/

namespace Stave

variable {κ σ : Type} {behave : κ → Script κ σ}

/-! ## Histories -/

theorem Stage.dispatched_eq (behave : κ → Script κ σ) (n : Nat) (s : Stage κ σ) :
    (s.dispatch behave n).1.dispatched = (s.performances behave n).map Prod.fst := by
  induction n, s using Stage.dispatch_induct behave with
  | idle n s _ hd hp => rw [hd, hp]; rfl
  | fails n s e rest source s' _ _ _ hd hp => rw [hd, hp]; rfl
  | ends n s e rest s' _ _ _ _ hd hp => rw [hd, hp]; rfl
  | next n s e rest s' _ _ _ _ hd hp ih =>
    rw [hd, hp, List.map_cons, ← ih]

namespace Course

/-- The callbacks that a move runs, each with the stage on which it runs. -/
def ran (behave : κ → Script κ σ) (r : Course κ σ) : Move κ → List (Entry κ × Stage κ σ)
  | .tick =>
    if r.stage.clock.state = .running then r.stage.performances behave r.stage.clock.due.length
    else []
  | _ => []

/-- The callbacks that some moves run. -/
def runs (behave : κ → Script κ σ) : Course κ σ → List (Move κ) → List (Entry κ × Stage κ σ)
  | _, [] => []
  | r, m :: moves => r.ran behave m ++ (r.move behave m).runs behave moves

/-- All callbacks that have run since the clock was new. -/
def history (behave : κ → Script κ σ) (host : σ) (moves : List (Move κ)) :
    List (Entry κ × Stage κ σ) :=
  runs behave ⟨⟨{}, host⟩, {}⟩ moves

/-- In a history one callback runs before another wherever both do, and the other not without it. -/
structure Precedes (a b : Entry κ) (runs : List (Entry κ × Stage κ σ)) : Prop where
  before : ∀ (i j : Nat) s t, runs[i]? = some (a, s) → runs[j]? = some (b, t) → i < j
  led : ∀ (j : Nat) t, runs[j]? = some (b, t) → ∃ i s, i < j ∧ runs[i]? = some (a, s)

theorem dispatched_move (behave : κ → Script κ σ) (r : Course κ σ) (m : Move κ) :
    (r.move behave m).log.dispatched.map Dispatch.entry =
      r.log.dispatched.map Dispatch.entry ++ (r.ran behave m).map Prod.fst := by
  have hask : ∀ call, (r.ask call).log.dispatched.map Dispatch.entry =
      r.log.dispatched.map Dispatch.entry ++ [] := by
    intro call
    rw [dispatched_ask, List.append_nil]
  cases m with
  | run first => exact hask _
  | schedule offset callback => exact hask _
  | bind resolution cue events =>
    rw [move]
    split
    · exact hask _
    · exact (List.append_nil _).symm
  | terminate => exact hask .terminate
  | tick =>
    rw [move, ran]
    by_cases hrun : r.stage.clock.state = .running
    · rw [tick_of_running hrun, if_pos hrun, ← Stage.dispatched_eq]
      exact Chronicle.map_entry_take _ _ _
    · rw [tick_of_not_running hrun, if_neg hrun]
      exact (List.append_nil _).symm

theorem dispatched_moves (behave : κ → Script κ σ) (r : Course κ σ) (moves : List (Move κ)) :
    (moves.foldl (move behave) r).log.dispatched.map Dispatch.entry =
      r.log.dispatched.map Dispatch.entry ++ (r.runs behave moves).map Prod.fst := by
  induction moves generalizing r with
  | nil => exact (List.append_nil _).symm
  | cons m moves ih =>
    rw [List.foldl_cons, ih, dispatched_move, runs, List.map_append, List.append_assoc]

theorem dispatched_after (behave : κ → Script κ σ) (host : σ) (moves : List (Move κ)) :
    (after behave host moves).log.dispatched.map Dispatch.entry =
      (history behave host moves).map Prod.fst := by
  rw [after, dispatched_moves]
  rfl

end Course

/-! ## One before the other -/

/-- Of two callbacks, the second has been run only if the first has; and unless the clock was ended,
the first is queued or has been run. -/
structure Led (a b : Entry κ) (c : Clock κ) (log : Chronicle κ) : Prop where
  sound : c.Sound
  waits : c.state = .terminated ∧ c.queue = [] ∨ a ∈ c.queue ∨
    a ∈ log.dispatched.map Dispatch.entry
  led : b ∈ log.dispatched.map Dispatch.entry → a ∈ log.dispatched.map Dispatch.entry

variable {a b : Entry κ} {c : Clock κ} {log : Chronicle κ}

theorem Led.stable {caller : Caller} : Stable caller (Led a b) where
  enqueue := by
    intro c log offset callback hc h
    refine ⟨h.sound.enqueue caller offset callback, ?_, h.led⟩
    rcases h.waits with ⟨hend, -⟩ | hqueued | hdone
    · exact absurd hend hc
    · exact .inr (.inl (Entry.mem_insert.2 (.inr hqueued)))
    · exact .inr (.inr hdone)
  start := by
    intro c log hc h
    refine ⟨⟨h.sound.sorted, h.sound.numbered⟩, ?_, h.led⟩
    exact .inr (h.waits.resolve_left fun hend => hc hend.1)
  terminate h := ⟨⟨List.Pairwise.nil, fun _ he => absurd he List.not_mem_nil⟩, .inl ⟨rfl, rfl⟩, h.led⟩

theorem Led.pop (hab : a.Before b) {e : Entry κ} {rest : List (Entry κ)} (h : Led a b c log)
    (hq : c.queue = e :: rest) :
    Led a b { c with queue := rest } (log.take c.now [e]) := by
  have hwaits : a ∈ c.queue ∨ a ∈ log.dispatched.map Dispatch.entry :=
    h.waits.resolve_left fun hend => List.cons_ne_nil e rest (hq.symm.trans hend.2)
  rw [hq, List.mem_cons, or_assoc] at hwaits
  refine ⟨h.sound.pop hq, ?_, ?_⟩
  · rw [Chronicle.map_entry_take, List.mem_append, List.mem_singleton]
    rcases hwaits with rfl | hqueued | hdone
    · exact .inr (.inr (.inr rfl))
    · exact .inr (.inl hqueued)
    · exact .inr (.inr (.inl hdone))
  · rw [Chronicle.map_entry_take, List.mem_append, List.mem_append, List.mem_singleton,
      List.mem_singleton]
    rintro (hdone | rfl)
    · exact .inl (h.led hdone)
    · -- the second is not at the head of a queue in which the first still is
      rcases hwaits with rfl | hqueued | hdone
      · exact absurd hab (Entry.Before.irrefl a)
      · have hback := (List.pairwise_cons.1 (hq ▸ h.sound.sorted)).1 a hqueued
        exact absurd (hab.trans hback) (Entry.Before.irrefl a)
      · exact .inl hdone

theorem Led.advance {s : Stage κ σ} (h : Led a b s.clock log) : Led a b s.advance.clock log := by
  unfold Stage.advance
  split
  · exact ⟨⟨h.sound.sorted, h.sound.numbered⟩, h.waits, h.led⟩
  · exact h

namespace Course

theorem led_tick (hab : a.Before b) {r : Course κ σ} (h : Led a b r.stage.clock r.log) :
    Led a b (r.tick behave).stage.clock (r.tick behave).log := by
  by_cases hrun : r.stage.clock.state = .running
  · obtain ⟨-, -, hdone⟩ := Led.stable.dispatch (fun h hq _ => Led.pop hab h hq) behave
      r.stage.clock.due.length r.log hrun h
    rw [tick_of_running hrun]
    have := hdone.advance
    exact ⟨this.sound, this.waits, this.led⟩
  · rw [tick_of_not_running hrun]
    exact h

theorem led_moves (hab : a.Before b) {r : Course κ σ} (h : Led a b r.stage.clock r.log)
    (behave : κ → Script κ σ) (moves : List (Move κ)) :
    Led a b (moves.foldl (move behave) r).stage.clock (moves.foldl (move behave) r).log :=
  moves_induct (P := fun r => Led a b r.stage.clock r.log) h
    (fun _ call h => Led.stable.ask call h) (fun _ h => led_tick hab h) moves

/-- Two callbacks that are in the queue together are run in their order, and the second not without
the first. -/
theorem precedes_of_before {host : σ} {moves : List (Move κ)} (hab : a.Before b)
    (ha : a ∈ (after behave host moves).stage.clock.queue)
    (hb : b ∈ (after behave host moves).stage.clock.queue) (more : List (Move κ)) :
    Precedes a b (history behave host (moves ++ more)) := by
  have horderly := orderly_after behave host moves
  have hstart : Led a b (after behave host moves).stage.clock (after behave host moves).log := by
    refine ⟨horderly.sound, .inr (.inl ha), fun hdone => ?_⟩
    obtain ⟨d, hd, rfl⟩ := List.mem_map.1 hdone
    exact absurd (horderly.ahead d hd _ hb) (Entry.Before.irrefl _)
  have hled := (led_moves hab hstart behave more).led
  rw [← after_append, dispatched_after] at hled
  have hsorted := (orderly_after behave host (moves ++ more)).ordered
  rw [dispatched_after] at hsorted
  have hrun : ∀ {e : Entry κ} {i : Nat} {s : Stage κ σ},
      (history behave host (moves ++ more))[i]? = some (e, s) →
      ((history behave host (moves ++ more)).map Prod.fst)[i]? = some e := by
    intro e i s h
    rw [List.getElem?_map, h]
    rfl
  have hlt : ∀ (i j : Nat) s t, (history behave host (moves ++ more))[i]? = some (a, s) →
      (history behave host (moves ++ more))[j]? = some (b, t) → i < j :=
    fun i j s t hi hj => Entry.lt_of_before hsorted (hrun hi) (hrun hj) hab
  refine ⟨hlt, fun j t hj => ?_⟩
  obtain ⟨⟨_, s⟩, hmem, rfl⟩ := List.mem_map.1 (hled (List.mem_of_getElem? (hrun hj)))
  obtain ⟨i, hi⟩ := List.mem_iff_getElem?.1 hmem
  exact ⟨i, s, hlt i j s t hi hj, hi⟩

end Course

end Stave
