import Stave.Proofs.Except
import Stave.Proofs.Ratio
import Stave.Sequencer

/-!
# The ticks of an event

Where events can be placed at all, their beginnings and ends fall on the ticks that exact
arithmetic gives, rounded down, and an end never before its beginning.

    r.ticksOf e = .ok t → t = (r.onTick e, r.offTick e)                   (ticksOf_eq_ok)
    r.ticksOf e = .ok t → r.onTick e = r.tickAt e.start.toRat             (natCast_onTick)
    r.cues callback events = .ok l →
      l is each event's beginning and end, event by event                 (cues_eq_ok)
    r.bind .. c = .ok (c', queued) → c' is c with these queued            (bound_of_bind)
-/

namespace Stave.Resolution

variable {κ : Type} {r : Resolution}

/-! ## Exact ticks -/

/-- The tick on which a number of beats has passed. -/
def tickAt (r : Resolution) (beats : ℚ) : ℤ := ⌊beats * r.ticksPerBeat.toNat⌋

def onTick (r : Resolution) (e : Event) : ℕ := (r.tickAt e.start.toRat).toNat

def offTick (r : Resolution) (e : Event) : ℕ :=
  (max (r.tickAt (e.start.toRat + e.duration.toRat)) (r.tickAt e.start.toRat)).toNat

/-- The beginning and the end of an event, each with its tick. -/
def boundaries (r : Resolution) (e : Event) : List (ℕ × Cue) :=
  [(r.onTick e, .on e), (r.offTick e, .off e)]

/-! ## Checked ticks -/

theorem toRat_ratio (r : Resolution) : r.ratio.toRat = r.ticksPerBeat.toNat := by
  rw [ratio, Ratio.toRat_ofInt]
  exact Int.cast_natCast _

theorem toTicks_eq_ok {beats : Ratio} {t : Int} (h : r.toTicks beats = .ok t) :
    t = r.tickAt beats.toRat := by
  unfold toTicks at h
  split at h
  · next ticks hticks =>
    cases h
    rw [tickAt, ← toRat_ratio, ← Ratio.mul?_eq_some_iff.1 hticks, Ratio.floor_toRat]
  · cases h

theorem ticksOf_eq_ok {e : Event} {t : Nat × Nat} (h : r.ticksOf e = .ok t) :
    t = (r.onTick e, r.offTick e) := by
  unfold ticksOf at h
  split at h
  · cases h
  · split at h
    · cases h
    · next stop hstop =>
      obtain ⟨on, hon, h⟩ := bind_eq_ok h
      obtain ⟨off, hoff, rfl⟩ := bind_pure_eq_ok h
      have hend : stop.toRat = e.start.toRat + e.duration.toRat := Ratio.add?_eq_some_iff.1 hstop
      rw [toTicks_eq_ok hon, toTicks_eq_ok hoff, hend]
      rfl

section

variable {e : Event} {t : Nat × Nat}

/-- An event that starts before the first beat is refused. -/
theorem tickAt_nonneg (h : r.ticksOf e = .ok t) : 0 ≤ r.tickAt e.start.toRat := by
  unfold ticksOf at h
  split at h
  · cases h
  · next hn =>
    rw [Ratio.isNegative_iff, not_not, ← Ratio.toRat_nonneg] at hn
    exact Int.floor_nonneg.2 (mul_nonneg hn (Nat.cast_nonneg _))

theorem natCast_onTick (h : r.ticksOf e = .ok t) : (r.onTick e : ℤ) = r.tickAt e.start.toRat :=
  Int.toNat_of_nonneg (tickAt_nonneg h)

theorem natCast_offTick (h : r.ticksOf e = .ok t) : (r.offTick e : ℤ) =
    max (r.tickAt (e.start.toRat + e.duration.toRat)) (r.tickAt e.start.toRat) :=
  Int.toNat_of_nonneg (le_max_of_le_right (tickAt_nonneg h))

end

theorem cues_eq_ok {callback : Cue → κ} {events : List Event} {callbacks : List (Nat × κ)}
    (h : r.cues callback events = .ok callbacks) :
    callbacks = (events.flatMap r.boundaries).map (fun (tick, cue) => (tick, callback cue)) ∧
      ∀ e ∈ events, ∃ t, r.ticksOf e = .ok t := by
  obtain ⟨ts, hts, rfl⟩ := bind_pure_eq_ok h
  obtain ⟨rfl, hes⟩ := mapM_eq_map (fun e t => ticksOf_eq_ok) hts
  refine ⟨?_, hes⟩
  clear h hts hes
  induction events with
  | nil => rfl
  | cons e es ih =>
    rw [List.map_cons, List.zip_cons_cons, List.flatMap_cons, ih, List.flatMap_cons, List.map_append]
    rfl

theorem length_boundaries (r : Resolution) (events : List Event) :
    (events.flatMap r.boundaries).length = 2 * events.length := by
  induction events with
  | nil => rfl
  | cons e es ih =>
    rw [List.flatMap_cons, List.length_append, ih, List.length_cons]
    show 2 + _ = _
    omega

/-- What a bind that is not refused leaves of a clock that goes on. -/
theorem bound_of_bind {callback : Cue → κ} {events : List Event} {caller : Caller} {c c' : Clock κ}
    {queued : Nat} (hstate : c.state ≠ .terminated)
    (h : r.bind callback events caller c = .ok (c', queued)) :
    c' = c.enqueueAll caller
      ((events.flatMap r.boundaries).map fun (tick, cue) => (tick, callback cue)) ∧
    queued = 2 * events.length ∧ ∀ e ∈ events, ∃ t, r.ticksOf e = .ok t := by
  obtain ⟨callbacks, hcues, hanswer⟩ := bind_eq_ok h
  obtain ⟨rfl, hevents⟩ := cues_eq_ok hcues
  rw [Clock.answer, if_neg hstate] at hanswer
  obtain ⟨rfl, rfl⟩ := Prod.mk.inj (Except.ok.inj hanswer)
  rw [List.length_map, length_boundaries]
  exact ⟨rfl, rfl, hevents⟩

end Stave.Resolution
