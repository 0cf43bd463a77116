import Stave.Proofs.Clock.Order
import Stave.Session

/-!
# Delivery among other callbacks

The cues of bound events share their queue with callbacks of which nothing is known but that they
fail nothing, end nothing and leave the sink alone.  Then every cue is dispatched on its tick, and
the sink receives the messages in the order of the queue.

    P.Awaits lo hi left s → s awaits the cues in left, which have
      the indices from lo up to hi in its queue                           (Awaits)
    P.Awaits lo hi left s → (all else is harmless) →
      the sink receives those in left that are due within k ticks         (Awaits.ticks)
-/

namespace Stave

variable {κ σ : Type}

/-- What a cue sends if it is dispatched on its tick. -/
def Entry.message (x : Entry Cue) : Message := x.callback.message x.due

/-- No later call fails. -/
def Sink.Reliable (s : Sink) : Prop := ∀ n ∈ s.failing, n < s.calls

theorem Sink.Reliable.receive {s : Sink} (h : s.Reliable) (m : Message) :
    s.receive m = (none, { s with messages := s.messages ++ [m], calls := s.calls + 1 }) := by
  have hmem : ¬ s.failing.contains s.calls = true := by
    rw [List.contains_iff_mem]
    intro hmem
    exact Nat.lt_irrefl _ (h s.calls hmem)
  rw [Sink.receive, if_neg hmem]

/-! ## Players -/

/-- Callbacks among which are the cues of notes, on a host that keeps the sink of these. -/
structure Player (κ σ : Type) where
  behave : κ → Script κ σ
  cue : Cue → κ
  sink : σ → Sink
  withSink : σ → Sink → σ
  sink_withSink : ∀ host s, sink (withSink host s) = s
  behave_cue : ∀ c, behave (cue c) = .look fun view => .act (fun host =>
    let (failure, s) := (sink host).receive (c.message view.now)
    (failure, withSink host s)) .done

def Session.player : Player Session.Callback Session.Host where
  behave := Session.behave
  cue := .cue
  sink := Session.Host.sink
  withSink host sink := { host with sink }
  sink_withSink _ _ := rfl
  behave_cue _ := rfl

namespace Player

variable {P : Player κ σ} {s s' : Stage κ σ} {lo hi : Nat} {left : List (Entry Cue)}

/-- A callback that, run on a stage, neither fails, nor ends the clock, nor uses the sink. -/
structure Harmless (P : Player κ σ) (callback : κ) (s : Stage κ σ) : Prop where
  succeeds : ((P.behave callback).exec s).1 = none
  goes_on : ((P.behave callback).exec s).2.clock.state ≠ .terminated
  silent : P.sink ((P.behave callback).exec s).2.host = P.sink s.host

/-- A running clock whose queue holds, under the indices from `lo` up to `hi`, some cues that are
not overdue, and a sink that will take their messages. -/
structure Awaits (P : Player κ σ) (lo hi : Nat) (left : List (Entry Cue)) (s : Stage κ σ) :
    Prop where
  sound : s.clock.Sound
  running : s.clock.state = .running
  given : hi ≤ s.clock.nextIndex
  ours : s.clock.queue.filter (fun e => lo ≤ e.index ∧ e.index < hi) = left.map (Entry.map P.cue)
  early : ∀ x ∈ left, s.clock.now ≤ x.due
  reliable : (P.sink s.host).Reliable

/-- Between two stages the cues due by now are delivered and the others are still awaited. -/
structure Delivers (P : Player κ σ) (lo hi : Nat) (left : List (Entry Cue)) (s s' : Stage κ σ) :
    Prop where
  awaits : P.Awaits lo hi (left.filter (s.clock.now + 1 ≤ ·.due)) s'
  now : s'.clock.now = s.clock.now
  messages : (P.sink s'.host).messages =
    (P.sink s.host).messages ++ (left.filter (·.due < s.clock.now + 1)).map Entry.message

/-! ## One callback -/

/-- A callback that, run on a stage, makes one call of the sink with a message, and does nothing
else. -/
def Sends (P : Player κ σ) (callback : κ) (s : Stage κ σ) (m : Message) : Prop :=
  (P.behave callback).exec s = (((P.sink s.host).receive m).1,
    { s with host := P.withSink s.host ((P.sink s.host).receive m).2 })

theorem sends_cue (P : Player κ σ) (c : Cue) (s : Stage κ σ) : P.Sends (P.cue c) s (c.message s.clock.now) := by
  rw [Sends, P.behave_cue]
  simp only [Script.exec, Clock.view]
  rcases (P.sink s.host).receive (c.message s.clock.now) with ⟨_ | failure, host⟩ <;> rfl

theorem exec_cue (c : Cue) (h : (P.sink s.host).Reliable) :
    (P.behave (P.cue c)).exec s =
      (none, { s with host := P.withSink s.host { P.sink s.host with
        messages := (P.sink s.host).messages ++ [c.message s.clock.now]
        calls := (P.sink s.host).calls + 1 } }) := by
  rw [P.sends_cue c s, h.receive]

/-- What else is queued does not mix with what has been queued before. -/
theorem others_stable (lo hi : Nat) (es : List (Entry κ)) : Stable .callback fun (c : Clock κ) _ =>
    c.state = .terminated ∨
      hi ≤ c.nextIndex ∧ c.queue.filter (fun e => lo ≤ e.index ∧ e.index < hi) = es where
  enqueue := by
    rintro c log offset callback hc (hend | ⟨hn, hes⟩)
    · exact absurd hend hc
    · refine .inr ⟨Nat.le_succ_of_le hn, ?_⟩
      rw [← hes]
      refine Entry.filter_insert_of_neg ?_ c.queue
      simp only [decide_eq_true_eq]
      omega
  start hc h := .inr (h.resolve_left hc)
  terminate _ := .inl rfl

theorem Awaits.harmless (h : P.Awaits lo hi left s) {callback : κ} (hh : P.Harmless callback s) :
    P.Awaits lo hi left ((P.behave callback).exec s).2 ∧
      ((P.behave callback).exec s).2.clock.now = s.clock.now := by
  have hstart : s.clock.state ≠ .stopped := by rw [h.running]; decide
  obtain ⟨⟨⟨hsound, hstarted⟩, hnow⟩, hours⟩ :=
    (((Clock.Sound.stable.and Stable.started).and (Stable.now s.clock.now)).and
      (others_stable lo hi (left.map (Entry.map P.cue)))).exec_clock (P.behave callback)
      ⟨⟨⟨h.sound, hstart⟩, rfl⟩, .inr ⟨h.given, h.ours⟩⟩
  have hours' := hours.resolve_left hh.goes_on
  refine ⟨⟨hsound, Stable.running_of_ne hstarted hh.goes_on, hours'.1, hours'.2, ?_, ?_⟩, hnow⟩
  · rw [hnow]
    exact h.early
  · rw [hh.silent]
    exact h.reliable

theorem Awaits.cue {x : Entry Cue} (h : P.Awaits lo hi left s) :
    P.Awaits lo hi left ((P.behave (P.cue x.callback)).exec s).2 := by
  rw [exec_cue x.callback h.reliable]
  refine ⟨h.sound, h.running, h.given, h.ours, h.early, ?_⟩
  show Sink.Reliable (P.sink (P.withSink _ _))
  rw [P.sink_withSink]
  intro n hn
  exact Nat.lt_succ_of_lt (h.reliable n hn)

section

variable {e : Entry κ} {rest : List (Entry κ)}

/-- The first of the cues awaited is taken from the queue. -/
theorem Awaits.pop_cue (h : P.Awaits lo hi left s) (hq : s.clock.queue = e :: rest)
    (he : e.due ≤ s.clock.now) (hi' : lo ≤ e.index ∧ e.index < hi) :
    ∃ x left', left = x :: left' ∧ e = x.map P.cue ∧ x.due = s.clock.now ∧
      P.Awaits lo hi left' (s.pop rest) := by
  have hours := h.ours
  rw [hq, List.filter_cons_of_pos (by simpa using hi')] at hours
  cases left with
  | nil => cases hours
  | cons x left' =>
    obtain ⟨rfl, hrest⟩ := List.cons.inj hours
    refine ⟨x, left', rfl, rfl, ?_, h.sound.pop hq, h.running, h.given, hrest, ?_, h.reliable⟩
    · exact Nat.le_antisymm he (h.early x List.mem_cons_self)
    · intro y hy
      exact h.early y (List.mem_cons_of_mem x hy)

theorem Awaits.pop_other (h : P.Awaits lo hi left s) (hq : s.clock.queue = e :: rest)
    (hi' : ¬ (lo ≤ e.index ∧ e.index < hi)) :
    P.Awaits lo hi left (s.pop rest) := by
  have hours := h.ours
  rw [hq, List.filter_cons_of_neg (by simpa using hi')] at hours
  exact ⟨h.sound.pop hq, h.running, h.given, hours, h.early, h.reliable⟩

end

/-! ## One dispatch -/

/-- Nothing is delivered when nothing is due. -/
theorem Awaits.delivers_none (h : P.Awaits lo hi left s)
    (hnone : ∀ e ∈ s.clock.queue, s.clock.now < e.due) : P.Delivers lo hi left s s := by
  have hlate : ∀ x ∈ left, s.clock.now < x.due := by
    intro x hx
    have hmem : x.map P.cue ∈ left.map (Entry.map P.cue) := List.mem_map_of_mem hx
    rw [← h.ours] at hmem
    exact hnone _ (List.mem_filter.1 hmem).1
  have hkeep : left.filter (s.clock.now + 1 ≤ ·.due) = left := by
    rw [List.filter_eq_self]
    intro x hx
    exact decide_eq_true (hlate x hx)
  have hsend : left.filter (·.due < s.clock.now + 1) = [] := by
    rw [List.filter_eq_nil_iff]
    intro x hx hle
    have := hlate x hx
    simp only [decide_eq_true_eq] at hle
    omega
  constructor
  · rw [hkeep]
    exact h
  · rfl
  · rw [hsend, List.map_nil, List.append_nil]

/-- A cue delivered first is the first message. -/
theorem Delivers.cons {s₁ : Stage κ σ} {x : Entry Cue} (h : P.Delivers lo hi left s₁ s')
    (hx : x.due = s.clock.now) (hnow : s₁.clock.now = s.clock.now)
    (hmessages : (P.sink s₁.host).messages = (P.sink s.host).messages ++ [x.message]) :
    P.Delivers lo hi (x :: left) s s' := by
  have hawaits := h.awaits
  have hsent := h.messages
  rw [hnow] at hawaits hsent
  refine ⟨?_, h.now.trans hnow, ?_⟩
  · rw [List.filter_cons_of_neg (by simp [hx])]
    exact hawaits
  · rw [hsent, hmessages, List.filter_cons_of_pos (by simp [hx]), List.map_cons, List.append_assoc,
      List.singleton_append]

theorem Delivers.after_other {s₁ : Stage κ σ} (h : P.Delivers lo hi left s₁ s')
    (hnow : s₁.clock.now = s.clock.now) (hsink : P.sink s₁.host = P.sink s.host) :
    P.Delivers lo hi left s s' := by
  have hawaits := h.awaits
  have hsent := h.messages
  rw [hnow] at hawaits hsent
  exact ⟨hawaits, h.now.trans hnow, by rw [hsent, hsink]⟩

/-- The first callback taken succeeds, and what it leaves to deliver is what is left. -/
theorem Awaits.first {e : Entry κ} {rest : List (Entry κ)} (h : P.Awaits lo hi left s)
    (hq : s.clock.queue = e :: rest) (he : e.due ≤ s.clock.now)
    (hother : ¬ (lo ≤ e.index ∧ e.index < hi) → P.Harmless e.callback (s.pop rest)) :
    ((P.behave e.callback).exec (s.pop rest)).1 = none ∧
    ∃ left', P.Awaits lo hi left' ((P.behave e.callback).exec (s.pop rest)).2 ∧
      ∀ s', P.Delivers lo hi left' ((P.behave e.callback).exec (s.pop rest)).2 s' →
        P.Delivers lo hi left s s' := by
  by_cases hi' : lo ≤ e.index ∧ e.index < hi
  · obtain ⟨x, left', rfl, rfl, hx, hrest⟩ := h.pop_cue hq he hi'
    have hexec := exec_cue (s := s.pop rest) x.callback h.reliable
    have hnow := congrArg (fun r => r.2.clock.now) hexec
    have hsink := congrArg (fun r => (P.sink r.2.host).messages) hexec
    rw [P.sink_withSink] at hsink
    refine ⟨congrArg Prod.fst hexec, left', hrest.cue (x := x), ?_⟩
    intro s' hs'
    refine hs'.cons hx hnow ?_
    rw [Entry.message, hx]
    exact hsink
  · have hh := hother hi'
    obtain ⟨hrest, hnow⟩ := (h.pop_other hq hi').harmless hh
    refine ⟨hh.succeeds, left, hrest, ?_⟩
    intro s' hs'
    exact hs'.after_other hnow hh.silent

/-- A dispatch delivers the cues that are due, if all else that it runs is harmless. -/
theorem Awaits.dispatch (n : Nat) (h : P.Awaits lo hi left s)
    (hn : (s.clock.queue.filter (·.due ≤ s.clock.now)).length ≤ n)
    (hothers : ∀ p ∈ s.performances P.behave n, ¬ (lo ≤ p.1.index ∧ p.1.index < hi) →
      P.Harmless p.1.callback p.2) :
    (s.dispatch P.behave n).1.error = none ∧
      P.Delivers lo hi left s (s.dispatch P.behave n).2 := by
  induction n, s using Stage.dispatch_induct P.behave generalizing left with
  | idle n s hidle hd hp =>
    rw [hd]
    exact ⟨rfl, h.delivers_none (Entry.lt_due_of_idle h.sound.sorted hn hidle)⟩
  | fails n s e rest source s' hq he hx hd hp =>
    obtain ⟨hok, -⟩ := h.first hq he (hothers (e, s.pop rest) (hp ▸ List.mem_cons_self))
    rw [hx] at hok
    cases hok
  | ends n s e rest s' hq he hx hs' hd hp =>
    -- neither a cue nor anything harmless ends the clock
    obtain ⟨-, left', hrest, -⟩ := h.first hq he (hothers (e, s.pop rest) (hp ▸ List.mem_cons_self))
    rw [hx] at hrest
    rw [hrest.running] at hs'
    cases hs'
  | next n s e rest s' hq he hx hs' hd hp ih =>
    obtain ⟨-, left', hrest, hdelivers⟩ :=
      h.first hq he (hothers (e, s.pop rest) (hp ▸ List.mem_cons_self))
    obtain ⟨-, hn'⟩ := Stage.dueCount_exec P.behave hq he hx hn
    rw [hx] at hrest hdelivers
    have hnext := ih hrest hn' fun p hp' => hothers p (hp ▸ List.mem_cons_of_mem _ hp')
    rw [hd]
    exact ⟨hnext.1, hdelivers _ hnext.2⟩

/-! ## Ticks -/

theorem Awaits.sorted (h : P.Awaits lo hi left s) : left.Pairwise Entry.Before := by
  have hours := h.sound.sorted.filter fun e => lo ≤ e.index ∧ e.index < hi
  rw [h.ours, List.pairwise_map] at hours
  exact hours

/-- An empty queue leaves nothing that was due from some tick on. -/
theorem Awaits.all_sent {t : Nat} (h : P.Awaits lo hi (left.filter (t ≤ ·.due)) s)
    (hempty : s.clock.queue = []) : left.filter (·.due < t) = left := by
  have hours := h.ours
  rw [hempty, List.filter_nil, eq_comm, List.map_eq_nil_iff, List.filter_eq_nil_iff] at hours
  rw [List.filter_eq_self]
  intro x hx
  have := hours x hx
  simpa using this

theorem Awaits.tick (h : P.Awaits lo hi left s)
    (hothers : ∀ p ∈ s.performances P.behave s.clock.due.length,
      ¬ (lo ≤ p.1.index ∧ p.1.index < hi) → P.Harmless p.1.callback p.2) :
    P.Awaits lo hi (left.filter (s.clock.now + 1 ≤ ·.due)) (s.tick P.behave).2 ∧
      (s.tick P.behave).2.clock.now = s.clock.now + 1 ∧
      (P.sink (s.tick P.behave).2.host).messages =
        (P.sink s.host).messages ++ (left.filter (·.due < s.clock.now + 1)).map Entry.message := by
  obtain ⟨-, hawaits, hnow, hmessages⟩ := h.dispatch _ h.sound.dueCount_le hothers
  have htick : (s.tick P.behave).2 = (s.dispatch P.behave s.clock.due.length).2.advance := by
    rw [Stage.tick, if_pos h.running]
  rw [htick, Stage.advance, if_pos hawaits.running]
  refine ⟨⟨?_, hawaits.running, hawaits.given, hawaits.ours, ?_, hawaits.reliable⟩, ?_, hmessages⟩
  · exact ⟨hawaits.sound.sorted, hawaits.sound.numbered⟩
  · intro x hx
    show (s.dispatch P.behave s.clock.due.length).2.clock.now + 1 ≤ x.due
    rw [hnow]
    exact of_decide_eq_true (List.mem_filter.1 hx).2
  · show (s.dispatch P.behave s.clock.due.length).2.clock.now + 1 = _
    rw [hnow]

/-- Some ticks deliver the cues due before they end, if all else that they run is harmless. -/
theorem Awaits.ticks (k : Nat) (h : P.Awaits lo hi left s)
    (hothers : ∀ p ∈ s.performed P.behave k, ¬ (lo ≤ p.1.index ∧ p.1.index < hi) →
      P.Harmless p.1.callback p.2) :
    P.Awaits lo hi (left.filter (s.clock.now + k ≤ ·.due)) (s.ticks P.behave k) ∧
      (P.sink (s.ticks P.behave k).host).messages =
        (P.sink s.host).messages ++ (left.filter (·.due < s.clock.now + k)).map Entry.message := by
  induction k generalizing s left with
  | zero =>
    have hkeep : left.filter (s.clock.now + 0 ≤ ·.due) = left := by
      rw [List.filter_eq_self]
      intro x hx
      exact decide_eq_true (h.early x hx)
    have hsend : left.filter (·.due < s.clock.now + 0) = [] := by
      rw [List.filter_eq_nil_iff]
      intro x hx hlt
      have := h.early x hx
      simp only [decide_eq_true_eq] at hlt
      omega
    rw [hkeep, hsend, List.map_nil, List.append_nil]
    exact ⟨h, rfl⟩
  | succ k ih =>
    rw [Stage.performed, if_pos h.running] at hothers
    obtain ⟨hawaits, hnow, hmessages⟩ :=
      h.tick fun p hp => hothers p (List.mem_append_left _ hp)
    obtain ⟨hlast, hrest⟩ := ih hawaits fun p hp => hothers p (List.mem_append_right _ hp)
    have hu : s.clock.now + 1 + k = s.clock.now + (k + 1) := by omega
    rw [hnow, hu] at hlast hrest
    constructor
    · rw [List.filter_filter] at hlast
      have hboth : left.filter (fun x => s.clock.now + (k + 1) ≤ x.due && s.clock.now + 1 ≤ x.due) =
          left.filter (s.clock.now + (k + 1) ≤ ·.due) := by
        apply List.filter_congr
        intro x _
        rw [← Bool.decide_and, decide_eq_decide]
        omega
      rw [hboth] at hlast
      exact hlast
    · rw [Stage.ticks, hrest, hmessages, List.append_assoc, ← List.map_append,
        Entry.filter_due_append h.sorted (by omega)]

end Player

end Stave
