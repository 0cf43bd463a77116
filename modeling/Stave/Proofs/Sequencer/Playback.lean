import Stave.Proofs.Score.Forward
import Stave.Proofs.Sequencer.Refusal
import Stave.Proofs.Sequencer.Sounding

/-!
# Playing a score to its end

A new clock with nothing but the cues of a score ticks until its queue is empty, one tick after the
last note has ended.  By then every note has begun and ended, in the order of the ticks.

    s.Playing → s.clock.ticksLeft ≤ n → s.drain Cue.script n = .ok (s with an
      empty queue, ticksLeft later, and the messages of all its cues)     (Playing.drain)
    a decoded score that can be bound plays to its end                    (played_to_end)
-/

namespace Stave

/-! ## Cues alone -/

/-- A sink after calls that have not failed. -/
def Sink.keep (s : Sink) (ms : List Message) : Sink :=
  { s with messages := s.messages ++ ms, calls := s.calls + ms.length }

theorem Sink.keep_nil (s : Sink) : s.keep [] = s := by
  rw [keep, List.append_nil]
  rfl

theorem Sink.keep_keep (s : Sink) (ms ms' : List Message) :
    (s.keep ms).keep ms' = s.keep (ms ++ ms') := by
  simp [keep, Nat.add_assoc]

theorem Sink.Reliable.keep {s : Sink} (h : s.Reliable) (ms : List Message) :
    (s.keep ms).Reliable := by
  intro n hn
  exact Nat.lt_add_right _ (h n hn)

namespace Stage

variable {s : Stage Cue Sink}

theorem exec_cue_script (c : Cue) (h : s.host.Reliable) :
    c.script.exec s = (none, { s with host := s.host.keep [c.message s.clock.now] }) := by
  simp only [Cue.script, Script.exec, Clock.view, h.receive]
  rfl

/-- Cues that are due are dispatched one after another. -/
theorem dispatch_cues (es : List (Entry Cue)) {rest : List (Entry Cue)}
    (hq : s.clock.queue = es ++ rest) (hdue : ∀ e ∈ es, e.due ≤ s.clock.now)
    (hrun : s.clock.state = .running) (hr : s.host.Reliable) :
    s.dispatch Cue.script es.length =
      (⟨es, none⟩, ⟨{ s.clock with queue := rest },
        s.host.keep (es.map fun e => e.callback.message s.clock.now)⟩) := by
  induction es generalizing s with
  | nil =>
    rw [List.map_nil, Sink.keep_nil, List.length_nil, dispatch, ← List.nil_append rest, ← hq]
  | cons e es ih =>
    have hgoing : s.clock.state ≠ .terminated := by rw [hrun]; decide
    have hexec : e.callback.script.exec { s with clock := { s.clock with queue := es ++ rest } } =
        (none, ⟨{ s.clock with queue := es ++ rest },
          s.host.keep [e.callback.message s.clock.now]⟩) :=
      exec_cue_script e.callback hr
    have hrest := ih (s := ⟨{ s.clock with queue := es ++ rest },
      s.host.keep [e.callback.message s.clock.now]⟩) rfl
      (fun f hf => hdue f (List.mem_cons_of_mem e hf)) hrun (hr.keep _)
    rw [List.length_cons, dispatch, hq]
    dsimp only [List.cons_append]
    rw [if_pos (hdue e List.mem_cons_self), hexec]
    dsimp only
    rw [if_neg hgoing, hrest, Sink.keep_keep]
    rfl

/-- A running clock with cues in order, none of them overdue, and a sink that takes them all. -/
structure Playing (s : Stage Cue Sink) : Prop where
  running : s.clock.state = .running
  sorted : s.clock.queue.Pairwise Entry.Before
  early : ∀ e ∈ s.clock.queue, s.clock.now ≤ e.due
  reliable : s.host.Reliable

/-- The stage one tick later, when some cues have been sent and others are left. -/
def sent (s : Stage Cue Sink) (es rest : List (Entry Cue)) : Stage Cue Sink :=
  ⟨{ s.clock with queue := rest, now := s.clock.now + 1 }, s.host.keep (es.map Entry.message)⟩

/-- A tick sends what is due and leaves the rest. -/
theorem Playing.tick (h : s.Playing) :
    ∃ es rest, s.clock.queue = es ++ rest ∧ (∀ e ∈ es, e.due = s.clock.now) ∧
      (∀ e ∈ rest, s.clock.now < e.due) ∧ s.tick Cue.script = (⟨es, none⟩, s.sent es rest) := by
  have hsplit : s.clock.queue = s.clock.due ++ s.clock.queue.dropWhile (·.due ≤ s.clock.now) :=
    List.takeWhile_append_dropWhile.symm
  have hdue : ∀ e ∈ s.clock.due, e.due = s.clock.now := by
    intro e he
    rw [Clock.due, Entry.takeWhile_due h.sorted] at he
    obtain ⟨hmem, hle⟩ := List.mem_filter.1 he
    exact Nat.le_antisymm (of_decide_eq_true hle) (h.early e hmem)
  refine ⟨s.clock.due, s.clock.queue.dropWhile (·.due ≤ s.clock.now), hsplit, hdue, ?_, ?_⟩
  · refine Entry.lt_due_of_idle (h.sorted.sublist (List.dropWhile_sublist _)) (le_refl _) (.inr ?_)
    intro e he
    have hhead := List.head?_dropWhile_not (fun e : Entry Cue => decide (e.due ≤ s.clock.now))
      s.clock.queue
    rw [Option.mem_def.1 he] at hhead
    simpa using hhead
  · have hmessages : s.clock.due.map (fun e => e.callback.message s.clock.now) =
        s.clock.due.map Entry.message := by
      refine List.map_congr_left fun e he => ?_
      rw [Entry.message, hdue e he]
    rw [Stage.tick, if_pos h.running,
      dispatch_cues s.clock.due hsplit (fun e he => (hdue e he).le) h.running h.reliable, hmessages]
    exact congrArg _ (if_pos h.running)

/-! ## Ticks to the end -/

theorem Playing.ticksLeft_pos (h : s.Playing) (hq : s.clock.queue ≠ []) :
    0 < s.clock.ticksLeft := by
  have hlast := h.early _ (List.getLast_mem hq)
  rw [Clock.ticksLeft, List.getLast?_eq_some_getLast hq]
  show 0 < (s.clock.queue.getLast hq).due + 1 - s.clock.now
  omega

section

variable {es rest : List (Entry Cue)}

theorem Playing.sent (h : s.Playing) (hsplit : s.clock.queue = es ++ rest)
    (hrest : ∀ e ∈ rest, s.clock.now < e.due) : (s.sent es rest).Playing where
  running := h.running
  sorted := by
    have hsorted := h.sorted
    rw [hsplit] at hsorted
    exact (List.pairwise_append.1 hsorted).2.1
  early := hrest
  reliable := h.reliable.keep _

theorem ticksLeft_sent (hq : s.clock.queue ≠ []) (hsplit : s.clock.queue = es ++ rest)
    (hes : ∀ e ∈ es, e.due = s.clock.now) (hrest : ∀ e ∈ rest, s.clock.now < e.due) :
    s.clock.ticksLeft = (s.sent es rest).clock.ticksLeft + 1 := by
  have hqueue : (s.sent es rest).clock.queue = rest := rfl
  have hnow : (s.sent es rest).clock.now = s.clock.now + 1 := rfl
  rw [Clock.ticksLeft, Clock.ticksLeft, hsplit, hqueue, hnow, List.getLast?_append]
  cases hlast : rest.getLast? with
  | some e =>
    have hlate := hrest e (List.mem_of_getLast? hlast)
    dsimp only [Option.some_or]
    omega
  | none =>
    have hnil := List.getLast?_eq_none_iff.1 hlast
    rw [hsplit, hnil, List.append_nil] at hq
    rw [List.getLast?_eq_some_getLast hq]
    dsimp only [Option.none_or]
    rw [hes _ (List.getLast_mem hq)]
    omega

end

/-- The stage when everything in the queue has been sent. -/
def played (s : Stage Cue Sink) : Stage Cue Sink :=
  ⟨{ s.clock with queue := [], now := s.clock.now + s.clock.ticksLeft },
    s.host.keep (s.clock.queue.map Entry.message)⟩

theorem played_of_empty (hq : s.clock.queue = []) : s.played = s := by
  have hleft : s.clock.ticksLeft = 0 := by
    rw [Clock.ticksLeft, hq]
    rfl
  rw [played, hleft, hq, List.map_nil, Sink.keep_nil, Nat.add_zero, ← hq]

theorem played_sent {es rest : List (Entry Cue)} (hsplit : s.clock.queue = es ++ rest)
    (hleft : s.clock.ticksLeft = (s.sent es rest).clock.ticksLeft + 1) :
    (s.sent es rest).played = s.played := by
  have hnow : s.clock.now + s.clock.ticksLeft =
      s.clock.now + 1 + (s.sent es rest).clock.ticksLeft := by omega
  rw [played, played, hnow, hsplit, List.map_append, ← Sink.keep_keep]
  rfl

/-- The last cue ends the playing, on the tick after its own. -/
theorem Playing.drain {n : Nat} (h : s.Playing) (hn : s.clock.ticksLeft ≤ n) :
    s.drain Cue.script n = .ok s.played := by
  induction n generalizing s with
  | zero =>
    have hq : s.clock.queue = [] := by
      by_contra hq
      have := h.ticksLeft_pos hq
      omega
    rw [Stage.drain, played_of_empty hq]
  | succ n ih =>
    by_cases hq : s.clock.queue = []
    · rw [Stage.drain, if_pos (by rw [hq]; rfl), played_of_empty hq]
    · obtain ⟨es, rest, hsplit, hes, hrest, htick⟩ := h.tick
      have hleft := ticksLeft_sent hq hsplit hes hrest
      rw [Stage.drain, if_neg (by simpa using hq), htick]
      dsimp only
      rw [ih (h.sent hsplit hrest) (by omega), played_sent hsplit hleft]

end Stage

/-! ## A new clock -/

/-- What a bind leaves on a new clock. -/
theorem bind_new_eq_ok {r : Resolution} {events : List Event} {c : Clock Cue} {n : Nat}
    (h : r.bind id events .owner {} = .ok (c, n)) :
    c.state = .stopped ∧ c.now = 0 ∧ c.queue.Pairwise Entry.Before ∧
      c.queue = (cueEntries 0 0 (events.flatMap r.boundaries)).mergeSort (·.due ≤ ·.due) ∧
      ∀ e ∈ events, ∃ t, r.ticksOf e = .ok t := by
  obtain ⟨callbacks, hcues, hanswer⟩ := bind_eq_ok h
  cases hanswer
  obtain ⟨hcallbacks, hevents⟩ := Resolution.cues_eq_ok hcues
  obtain ⟨hnow, hstate, -, hqueue⟩ := Clock.enqueueAll_spec {} .owner callbacks
  have hsound := Clock.Sound.enqueueAll (c := {})
    ⟨List.Pairwise.nil, fun _ h => absurd h List.not_mem_nil⟩ .owner callbacks
  have hsame : (cueEntries 0 0 (events.flatMap r.boundaries)).map (Entry.map id) =
      cueEntries 0 0 (events.flatMap r.boundaries) := List.map_id _
  subst hcallbacks
  rw [map_cueEntries] at hqueue
  refine ⟨hstate, hnow, hsound.sorted, ?_, hevents⟩
  refine Entry.eq_of_perm hsound.sorted (Entry.pairwise_mergeSort_due (pairwise_cueEntries _ _ _)) ?_
  refine hqueue.trans ?_
  show ((cueEntries 0 0 (events.flatMap r.boundaries)).map (Entry.map id)).Perm _
  rw [hsame]
  exact (List.mergeSort_perm _ _).symm

theorem onStage_eq_ok {r : Resolution} {events : List Event} {s : Stage Cue Sink} {bound : Nat}
    (h : onStage r events = .ok (s, bound)) :
    s.Playing ∧ s.clock.now = 0 ∧ s.host = {} ∧
      s.clock.queue = (cueEntries 0 0 (events.flatMap r.boundaries)).mergeSort (·.due ≤ ·.due) ∧
      ∀ e ∈ events, ∃ t, r.ticksOf e = .ok t := by
  obtain ⟨⟨clock, n⟩, hbind, h⟩ := bind_eq_ok h
  obtain ⟨⟨started, m⟩, hrun, h⟩ := bind_eq_ok h
  cases h
  obtain ⟨hstate, hnow, hsorted, hqueue, hevents⟩ := bind_new_eq_ok hbind
  rw [Clock.answer, if_neg (by rw [hstate]; decide)] at hrun
  cases hrun
  refine ⟨⟨rfl, hsorted, fun e _ => ?_, fun _ h => absurd h List.not_mem_nil⟩, hnow, rfl, hqueue, hevents⟩
  show clock.now ≤ e.due
  rw [hnow]
  exact Nat.zero_le _

/-! ## What can fail -/

/-- Events that start at zero or later are refused only for a tick that cannot be counted. -/
theorem onStage_eq_error {r : Resolution} {events : List Event} {t : TimingError}
    (hs : ∀ e ∈ events, 0 ≤ e.start) (h : onStage r events = .error t) :
    ∃ beats, t = .tickOverflow beats := by
  rcases bind_eq_error h with hbind | ⟨⟨clock, bound⟩, hbind, h⟩
  · obtain ⟨before, e, after, rfl, -, hrefuses⟩ := Resolution.bind_eq_error_iff.1 hbind
    exact hrefuses.tickOverflow (hs e (List.mem_append_right _ List.mem_cons_self))
  · have hrun := bind_pure_eq_error h
    unfold Clock.answer at hrun
    dsimp only at hrun
    split at hrun <;> cases hrun

/-! ## The last tick -/

theorem Clock.ticksLeft_eq {κ : Type} {c : Clock κ} {e : Entry κ}
    (hsorted : c.queue.Pairwise Entry.Before) (he : e ∈ c.queue) (hlast : ∀ f ∈ c.queue, f.due ≤ e.due) :
    c.ticksLeft = e.due + 1 - c.now := by
  have hq : c.queue ≠ [] := List.ne_nil_of_mem he
  have hle := hlast _ (List.getLast_mem hq)
  have hge : e.due ≤ (c.queue.getLast hq).due := by
    rw [← List.dropLast_append_getLast hq] at hsorted he
    rcases List.mem_append.1 he with he | he
    · exact ((List.pairwise_append.1 hsorted).2.2 e he _ List.mem_cons_self).due_le
    · rw [List.mem_singleton.1 he]
  rw [Clock.ticksLeft, List.getLast?_eq_some_getLast hq]
  dsimp only
  omega

theorem map_due_cueEntries (now first : Nat) (cues : List (Nat × Cue)) :
    (cueEntries now first cues).map Entry.due = cues.map fun (tick, _) => now + tick := by
  conv_rhs => rw [← List.zipIdx_map_fst first cues]
  rw [cueEntries, List.map_map, List.map_map]
  rfl

namespace Resolution

variable {r : Resolution} {e : Event}

theorem tickAt_mono (r : Resolution) {a b : ℚ} (h : a ≤ b) : r.tickAt a ≤ r.tickAt b :=
  Int.floor_mono (mul_le_mul_of_nonneg_right h (Nat.cast_nonneg _))

theorem natCast_offTick_of_nonneg {t : Nat × Nat} (h : r.ticksOf e = .ok t)
    (hd : 0 ≤ e.duration.toRat) :
    (r.offTick e : ℤ) = r.tickAt (e.start.toRat + e.duration.toRat) := by
  rw [natCast_offTick h]
  exact max_eq_left (r.tickAt_mono (le_add_of_nonneg_right hd))

end Resolution

/-- What is bound to a new clock takes as long as the event that ends last. -/
theorem onStage_ticksLeft {r : Resolution} {events : List Event} {s : Stage Cue Sink} {bound : Nat}
    (h : onStage r events = .ok (s, bound)) (hd : ∀ e ∈ events, 0 ≤ e.duration.toRat) {M : ℚ}
    (hM : IsGreatest {x | ∃ e ∈ events, e.start.toRat + e.duration.toRat = x} M) :
    (s.clock.ticksLeft : ℤ) = 1 + ⌊M * r.ticksPerBeat.toNat⌋ := by
  obtain ⟨⟨e, he, rfl⟩, hgreatest⟩ := hM
  obtain ⟨hplaying, hnow, -, hqueue, hticks⟩ := onStage_eq_ok h
  have hdues : ∀ t, (∃ f ∈ s.clock.queue, f.due = t) ↔
      ∃ e ∈ events, t = r.onTick e ∨ t = r.offTick e := by
    intro t
    rw [← List.mem_map, hqueue, ((List.mergeSort_perm _ _).map Entry.due).mem_iff,
      map_due_cueEntries]
    simp only [List.mem_map, List.mem_flatMap, Resolution.boundaries, List.mem_cons,
      List.not_mem_nil, or_false]
    constructor
    · rintro ⟨p, ⟨f, hf, rfl | rfl⟩, rfl⟩
      · exact ⟨f, hf, .inl (Nat.zero_add _)⟩
      · exact ⟨f, hf, .inr (Nat.zero_add _)⟩
    · rintro ⟨f, hf, rfl | rfl⟩
      · exact ⟨_, ⟨f, hf, .inl rfl⟩, Nat.zero_add _⟩
      · exact ⟨_, ⟨f, hf, .inr rfl⟩, Nat.zero_add _⟩
  have hoff : ∀ f ∈ events, (r.offTick f : ℤ) = r.tickAt (f.start.toRat + f.duration.toRat) := by
    intro f hf
    obtain ⟨t, ht⟩ := hticks f hf
    exact Resolution.natCast_offTick_of_nonneg ht (hd f hf)
  obtain ⟨last, hlast, hdue⟩ := (hdues (r.offTick e)).2 ⟨e, he, .inr rfl⟩
  have hmax : ∀ f ∈ s.clock.queue, f.due ≤ last.due := by
    intro f hf
    obtain ⟨g, hg, hfg⟩ := (hdues f.due).1 ⟨f, hf, rfl⟩
    have hle : r.offTick g ≤ r.offTick e := by
      have := r.tickAt_mono (hgreatest ⟨g, hg, rfl⟩)
      rw [← hoff g hg, ← hoff e he] at this
      exact_mod_cast this
    have := r.onTick_le_offTick g
    omega
  have hleft := Clock.ticksLeft_eq hplaying.sorted hlast hmax
  rw [hleft, hdue, hnow]
  have := hoff e he
  unfold Resolution.tickAt at this
  omega

/-! ## Whole scores -/

namespace Score

variable {source : List Char} {score : Sequence} {c : Setting} {start : Ratio}
  {events : List Event}

/-- A score that has been read and decoded is refused by a new clock only for a tick that cannot be
counted.  Once bound it plays to its end without a failure, up to the tick after the one on which
its last event ends: two messages for each note, in the order of their ticks, none ending before it
has begun, and none still sounding. -/
theorem played_to_end (r : Resolution) (hread : read source = .ok score)
    (hbeat : 0 ≤ c.defaults.beat) (hstart : 0 ≤ start)
    (hdecode : decode c start score = .ok events) :
    (∀ t, onStage r events = .error t → ∃ beats, t = .tickOverflow beats) ∧
    ∀ stage bound, onStage r events = .ok (stage, bound) →
      ∃ last, (∀ n, stage.clock.ticksLeft ≤ n → stage.drain Cue.script n = .ok last) ∧
        last.clock.queue = [] ∧
        (events = [] → last.clock.now = 0) ∧
        (∀ M, IsGreatest {x | ∃ e ∈ events, e.start.toRat + e.duration.toRat = x} M →
          (last.clock.now : ℤ) = 1 + ⌊M * r.ticksPerBeat.toNat⌋) ∧
        last.host.messages.length = 2 * score.notes.length ∧
        last.host.messages.Pairwise (·.tick ≤ ·.tick) ∧
        InTurn last.host.messages ∧
        sounding last.host.messages = [] := by
  obtain ⟨hnotes, hnonneg⟩ := nonneg_of_decode hread hstart hbeat hdecode
  constructor
  · intro t ht
    exact onStage_eq_error (fun e he => Ratio.toRat_nonneg.1 (hnonneg e he).1) ht
  · intro stage bound hstage
    obtain ⟨hplaying, hnow, hhost, hqueue, -⟩ := onStage_eq_ok hstage
    have hmessages : stage.played.host.messages = r.playback 0 events := by
      rw [r.playback_eq 0 0, ← hqueue]
      show stage.host.messages ++ stage.clock.queue.map Entry.message = _
      rw [hhost]
      rfl
    have hlast : stage.played.clock.now = stage.clock.ticksLeft := by
      show stage.clock.now + _ = _
      rw [hnow, Nat.zero_add]
    have hreleased := r.released_playback 0 events
    refine ⟨stage.played, fun n hn => hplaying.drain hn, rfl, ?_, ?_, ?_, ?_, ?_, ?_⟩
    · rintro rfl
      have hnone : cueEntries 0 0 (List.flatMap r.boundaries []) = [] := rfl
      rw [hlast, Clock.ticksLeft, hqueue, hnone, List.mergeSort_nil]
      rfl
    · intro M hM
      rw [hlast]
      exact onStage_ticksLeft hstage (fun e he => (hnonneg e he).2) hM
    · rw [hmessages, r.length_playback, hnotes]
    · rw [hmessages]
      exact r.pairwise_playback 0 events
    · rw [hmessages]
      exact hreleased.inTurn
    · rw [hmessages]
      exact hreleased.silent

/-- Two voices strike the same pitch, and one of them strikes it twice. -/
theorem played_to_end_two_voices : ∃ score events stage last,
    read "[4@2, 4 4] ~".toList = .ok score ∧ decode plainSetting 0 score = .ok events ∧
    onStage Session.slowly events = .ok (stage, 6) ∧
    stage.drain Cue.script stage.clock.ticksLeft = .ok last ∧
    last.host.messages.length = 6 ∧ sounding last.host.messages = [] := by
  have hplays : ((read "[4@2, 4 4] ~".toList).toOption.bind fun s =>
      (playSequence plainSetting 0 1 s).toOption.bind fun p =>
        (onStage Session.slowly p.events).toOption.map fun q =>
          (s.notes.length, q.2, decide (p.events.Pairwise (·.start ≤ ·.start)))) =
        some (3, 6, true) := by
    decide +kernel
  cases hread : read "[4@2, 4 4] ~".toList with
  | error e =>
    rw [hread] at hplays
    cases hplays
  | ok score =>
    rw [hread] at hplays
    cases hp : playSequence plainSetting 0 1 score with
    | error e => simp [hp, Except.toOption] at hplays
    | ok p =>
      cases hstage : onStage Session.slowly p.events with
      | error e => simp [hp, hstage, Except.toOption] at hplays
      | ok q =>
        obtain ⟨stage, bound⟩ := q
        simp only [hp, hstage, Except.toOption, Option.bind_some, Option.map_some,
          Option.some.injEq, Prod.mk.injEq, decide_eq_true_eq] at hplays
        obtain ⟨hnotes, rfl, hsorted⟩ := hplays
        have hdecode : decode plainSetting 0 score = .ok p.events := by
          have hsame : sortByStart p.events = p.events :=
            List.mergeSort_of_pairwise (hsorted.imp fun h => decide_eq_true h)
          show (playSequence plainSetting 0 1 score >>= _) = _
          rw [hp, ← hsame]
          rfl
        obtain ⟨last, hdrain, -, -, -, hlength, -, -, hsilent⟩ :=
          (played_to_end Session.slowly hread (by decide) (by decide) hdecode).2 stage 6 hstage
        refine ⟨score, p.events, stage, last, rfl, hdecode, hstage, hdrain _ (le_refl _), ?_, hsilent⟩
        rw [hlength, hnotes]

end Score

end Stave
