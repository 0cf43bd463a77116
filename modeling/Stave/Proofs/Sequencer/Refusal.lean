import Stave.Proofs.Sequencer.Ticks

/-!
# What is refused

A tick is the floor of a product, and the product is worked out first, as a ratio.  So a number of
beats is refused when the product, in lowest terms, has a numerator that 64 bits do not hold; this
is so whenever the tick itself does not fit, but also of some ticks that do.  An event is refused
for a start before zero, for an end that is no ratio, or for the product of either; and a bind for
the first event that is.

    r.toTicks beats is refused ↔ ¬ r.Counts beats.toRat                     (toTicks_eq)
    a tick that does not fit is refused                                     (Counts.holds_tickAt)
    r.ticksOf e = .error t ↔ r.Refuses e t                                  (ticksOf_eq_error_iff)
    r.bind .. = .error t ↔ the first event that is refused is for t         (bind_eq_error_iff)
-/

namespace Stave

namespace Resolution

variable {r : Resolution} {κ : Type}

/-! ## Ticks -/

/-- The product of a number of beats and the resolution, in lowest terms, has a numerator that 64
bits hold. -/
def Counts (r : Resolution) (beats : ℚ) : Prop :=
  Width.int64.Holds (beats * r.ticksPerBeat.toNat).num

instance (r : Resolution) (beats : ℚ) : Decidable (r.Counts beats) :=
  inferInstanceAs (Decidable (Width.int64.Holds _))

/-- A multiple of a ratio by a whole number has no larger denominator. -/
theorem holds_den_mul (b : Ratio) (n : ℕ) : Width.int64.Holds (b.toRat * n).den := by
  have hdvd : (b.toRat * n).den ∣ b.den := by
    have h := Rat.mul_den_dvd b.toRat n
    rwa [Rat.den_natCast, mul_one] at h
  have hle := Nat.le_of_dvd b.den_pos hdvd
  have hden := b.den_holds
  simp only [Width.Holds, Width.int64] at hden ⊢
  omega

theorem exists_ticks_iff {beats : Ratio} :
    (∃ q : Ratio, q.toRat = beats.toRat * r.ratio.toRat) ↔ r.Counts beats.toRat := by
  rw [toRat_ratio, Ratio.exists_toRat_eq_iff]
  exact and_iff_left (holds_den_mul beats _)

theorem toTicks_eq (r : Resolution) (beats : Ratio) : r.toTicks beats =
    if r.Counts beats.toRat then .ok (r.tickAt beats.toRat) else .error (.tickOverflow beats) := by
  unfold toTicks
  by_cases hcounts : r.Counts beats.toRat
  · obtain ⟨ticks, hticks⟩ := exists_ticks_iff.2 hcounts
    rw [if_pos hcounts, Ratio.mul?_eq_some_iff.2 hticks, tickAt, ← toRat_ratio, ← hticks,
      Ratio.floor_toRat]
  · rw [if_neg hcounts, Ratio.mul?_eq_none_iff.2 fun h => hcounts (exists_ticks_iff.1 h)]

theorem toTicks_eq_error_iff {beats : Ratio} {t : TimingError} :
    r.toTicks beats = .error t ↔ ¬ r.Counts beats.toRat ∧ t = .tickOverflow beats := by
  rw [toTicks_eq]
  split
  · next h => simp [h]
  · next h => simp [h, eq_comm]

theorem counts_of_toTicks {beats : Ratio} {tick : Int} (h : r.toTicks beats = .ok tick) :
    r.Counts beats.toRat := by
  by_contra hcounts
  rw [toTicks_eq_error_iff.2 ⟨hcounts, rfl⟩] at h
  cases h

/-- Where the product is a ratio, its floor fits. -/
theorem Counts.holds_tickAt {beats : Ratio} (h : r.Counts beats.toRat) :
    Width.int64.Holds (r.tickAt beats.toRat) := by
  obtain ⟨ticks, hticks⟩ := exists_ticks_iff.2 h
  rw [tickAt, ← toRat_ratio, ← hticks, Ratio.floor_toRat]
  exact ticks.floor_holds

/-- A product that is a whole number is refused only if it does not fit. -/
theorem counts_iff_of_whole {beats : ℚ} (h : (beats * r.ticksPerBeat.toNat).den = 1) :
    r.Counts beats ↔ Width.int64.Holds (r.tickAt beats) := by
  have hfloor : r.tickAt beats = (beats * r.ticksPerBeat.toNat).num := by
    rw [tickAt, ← (Rat.den_eq_one_iff _).1 h, Int.floor_intCast, Rat.num_intCast]
  rw [Counts, hfloor]

/-! ## Events -/

/-- Why an event cannot be placed. -/
inductive Refuses (r : Resolution) (e : Event) : TimingError → Prop
  | negative (h : ¬ 0 ≤ e.start) : Refuses r e (.negativeStart e.start)
  | endless (h : 0 ≤ e.start) (hstop : ¬ ∃ q : Ratio, q.toRat = e.start.toRat + e.duration.toRat) :
      Refuses r e (.tickOverflow e.start)
  | start {stop : Ratio} (h : 0 ≤ e.start) (hstop : stop.toRat = e.start.toRat + e.duration.toRat)
      (hon : ¬ r.Counts e.start.toRat) : Refuses r e (.tickOverflow e.start)
  | stop {stop : Ratio} (h : 0 ≤ e.start) (hstop : stop.toRat = e.start.toRat + e.duration.toRat)
      (hon : r.Counts e.start.toRat) (hoff : ¬ r.Counts stop.toRat) :
      Refuses r e (.tickOverflow stop)

theorem ticksOf_eq_error_iff {e : Event} {t : TimingError} :
    r.ticksOf e = .error t ↔ r.Refuses e t := by
  unfold ticksOf
  by_cases hstart : 0 ≤ e.start
  · rw [if_neg (by rw [Ratio.isNegative_iff, not_not]; exact hstart)]
    cases hstop : e.stop? with
    | none =>
      have hnone := Ratio.add?_eq_none_iff.1 hstop
      constructor
      · rintro ⟨⟩
        exact .endless hstart hnone
      · rintro (h | _ | ⟨_, hstop, _⟩ | ⟨_, hstop, _, _⟩)
        · exact absurd hstart h
        · rfl
        · exact absurd ⟨_, hstop⟩ hnone
        · exact absurd ⟨_, hstop⟩ hnone
    | some stop =>
      have hsome := Ratio.add?_eq_some_iff.1 hstop
      constructor
      · intro herror
        rcases bind_eq_error herror with hon | ⟨on, hon, herror⟩
        · obtain ⟨hcounts, rfl⟩ := toTicks_eq_error_iff.1 hon
          exact .start hstart hsome hcounts
        · obtain ⟨hoff, rfl⟩ := toTicks_eq_error_iff.1 (bind_pure_eq_error herror)
          exact .stop hstart hsome (counts_of_toTicks hon) hoff
      · rintro (h | ⟨_, hnone⟩ | ⟨_, _, hon⟩ | ⟨_, hsame, hon, hoff⟩)
        · exact absurd hstart h
        · exact absurd ⟨_, hsome⟩ hnone
        · dsimp only
          rw [toTicks_eq_error_iff.2 ⟨hon, rfl⟩]
          rfl
        · obtain rfl := Ratio.toRat_injective (hsame.trans hsome.symm)
          dsimp only
          rw [toTicks_eq_error_iff.2 ⟨hoff, rfl⟩, toTicks_eq, if_pos hon]
          rfl
  · rw [if_pos ((Ratio.isNegative_iff _).2 hstart)]
    constructor
    · rintro ⟨⟩
      exact .negative hstart
    · rintro (_ | ⟨h, _⟩ | ⟨h, _⟩ | ⟨h, _⟩)
      · rfl
      all_goals exact absurd h hstart

/-- An event that does not start before zero is refused for a tick. -/
theorem Refuses.tickOverflow {e : Event} {t : TimingError} (h : r.Refuses e t) (hs : 0 ≤ e.start) :
    ∃ beats, t = .tickOverflow beats := by
  cases h with
  | negative hneg => exact absurd hs hneg
  | endless => exact ⟨_, rfl⟩
  | start => exact ⟨_, rfl⟩
  | stop => exact ⟨_, rfl⟩

/-! ## Binds -/

/-- The first of some events that is refused is refused for this. -/
def FirstRefused (r : Resolution) (events : List Event) (t : TimingError) : Prop :=
  ∃ before e after, events = before ++ e :: after ∧ (∀ f ∈ before, ∀ u, ¬ r.Refuses f u) ∧
    r.Refuses e t

/-- Whatever refuses the same events goes through many as far as the first of these. -/
theorem mapM_eq_error_iff_firstRefused {α : Type} {f : Event → Except TimingError α}
    (hf : ∀ e t, f e = .error t ↔ r.Refuses e t) {events : List Event} {t : TimingError} :
    events.mapM f = .error t ↔ r.FirstRefused events t := by
  have hok : ∀ e, (∃ a, f e = .ok a) ↔ ∀ u, ¬ r.Refuses e u := by
    intro e
    simp only [← hf]
    cases f e with
    | ok a => simp
    | error u => simp
  rw [mapM_eq_error_iff, FirstRefused]
  simp only [hok, hf]

theorem bind_eq_error_iff {callback : Cue → κ} {events : List Event} {caller : Caller} {c : Clock κ}
    {t : TimingError} :
    r.bind callback events caller c = .error t ↔ r.FirstRefused events t := by
  rw [← mapM_eq_error_iff_firstRefused fun e t => ticksOf_eq_error_iff]
  constructor
  · intro h
    rcases bind_eq_error h with hcues | ⟨callbacks, -, hanswer⟩
    · exact bind_pure_eq_error hcues
    · rw [Clock.answer] at hanswer
      split at hanswer <;> cases hanswer
  · intro h
    rw [bind, cues, h]
    rfl

/-- A number of beats is refused exactly when its product with the resolution has, in lowest terms,
a numerator that 64 bits do not hold.  Then every tick that does not fit is refused, and among whole
ticks no other; and a bind answers so only for an event whose end is no ratio, or for a start or an
end of which that is true. -/
theorem tick_refusals (r : Resolution) :
    (∀ b : Ratio, r.toTicks b =
      if Width.int64.Holds (b.toRat * r.ticksPerBeat.toNat).num then
        .ok ⌊b.toRat * r.ticksPerBeat.toNat⌋
      else .error (.tickOverflow b)) ∧
    (∀ b : Ratio, ¬ Width.int64.Holds ⌊b.toRat * r.ticksPerBeat.toNat⌋ →
      r.toTicks b = .error (.tickOverflow b)) ∧
    (∀ b : Ratio, (b.toRat * r.ticksPerBeat.toNat).den = 1 →
      r.toTicks b = .error (.tickOverflow b) →
        ¬ Width.int64.Holds ⌊b.toRat * r.ticksPerBeat.toNat⌋) ∧
    ∀ (κ : Type) (callback : Cue → κ) (events : List Event) (caller : Caller) (c : Clock κ)
      (b : Ratio), r.bind callback events caller c = .error (.tickOverflow b) →
      ∃ e ∈ events, 0 ≤ e.start ∧
        (b = e.start ∧ (¬ ∃ q : Ratio, q.toRat = e.start.toRat + e.duration.toRat) ∨
        (b = e.start ∨ b.toRat = e.start.toRat + e.duration.toRat) ∧
          ¬ Width.int64.Holds (b.toRat * r.ticksPerBeat.toNat).num) := by
  refine ⟨r.toTicks_eq, fun b hb => ?_, fun b hwhole hb hholds => ?_,
    fun κ callback events caller c b hbind => ?_⟩
  · exact toTicks_eq_error_iff.2 ⟨fun h => hb h.holds_tickAt, rfl⟩
  · exact (toTicks_eq_error_iff.1 hb).1 ((counts_iff_of_whole hwhole).2 hholds)
  · obtain ⟨before, e, after, rfl, -, hrefuses⟩ := bind_eq_error_iff.1 hbind
    refine ⟨e, List.mem_append_right _ List.mem_cons_self, ?_⟩
    cases hrefuses with
    | endless h hstop => exact ⟨h, .inl ⟨rfl, hstop⟩⟩
    | start h _ hon => exact ⟨h, .inr ⟨.inl rfl, hon⟩⟩
    | stop h hstop _ hoff => exact ⟨h, .inr ⟨.inr hstop, hoff⟩⟩

/-- Twenty-four ticks to the beat. -/
def midi : Resolution := ⟨24, by decide⟩

/-- A little more than one beat, in the finest parts that there are. -/
def pastOne : Ratio :=
  ⟨9223372036854775807, 9223372036854775806, by decide, by decide, by decide, by decide⟩

/-- A tick that fits is refused: the exact product has a numerator of four times what fits. -/
theorem countable_tick_refused :
    ⌊pastOne.toRat * midi.ticksPerBeat.toNat⌋ = 24 ∧ Width.int64.Holds 24 ∧
    midi.toTicks pastOne = .error (.tickOverflow pastOne) ∧
    Ratio.add? 0 pastOne = some pastOne ∧ midi.toTicks 0 = .ok 0 ∧
    ∀ caller : Caller, midi.bind id [⟨60, 0, pastOne, 96, .normal⟩] caller {} =
      .error (.tickOverflow pastOne) := by
  have hfloor : ⌊pastOne.toRat * midi.ticksPerBeat.toNat⌋ = 24 := by
    have hticks : midi.ticksPerBeat.toNat = 24 := by decide
    rw [hticks, Ratio.toRat_eq_div, Int.floor_eq_iff]
    norm_num [pastOne]
  have hrefused : midi.toTicks pastOne = .error (.tickOverflow pastOne) := by decide +kernel
  have hstop : Ratio.add? 0 pastOne = some pastOne := by decide +kernel
  have hzero : midi.toTicks 0 = .ok 0 := by decide +kernel
  refine ⟨hfloor, by decide, hrefused, hstop, hzero, fun caller => ?_⟩
  refine bind_eq_error_iff.2 ⟨[], _, [], rfl, fun f hf => absurd hf List.not_mem_nil, ?_⟩
  exact .stop (by decide) (Ratio.add?_eq_some_iff.1 hstop) (counts_of_toTicks hzero)
    (toTicks_eq_error_iff.1 hrefused).1

end Resolution

end Stave
