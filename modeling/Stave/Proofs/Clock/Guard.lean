import Stave.Proofs.Clock.Tick

/-!
# The guard of a tick

A clock that callbacks are handed could be ticked by them.  What prevents it is a flag: it is raised
for the time of a tick, and a tick asked for meanwhile is ignored.  Here that clock is written out,
with the flag and with every tick that a script asks for, as the rules by which it moves.  The flag
is up whenever a script is at work and down whenever the owner has a say, however a tick ends, so
that the rules leave one course, and it is that of a clock whose scripts cannot tick at all.

    the flag up → a tick is ignored                                       (ticks_of_dispatching)
    the flag up → a script does what `exec` says                          (executes_iff)
    the flag down → a tick does what `Stage.tick` says, and the flag is
      down after it                                                       (ticks_iff)
    the owner sees what the owner of the plain clock sees                 (watched_new_iff)
-/

namespace Stave

variable {κ σ : Type}

/-- A stage, and whether a tick is under way on it. -/
structure Guarded (κ σ : Type) where
  stage : Stage κ σ
  dispatching : Bool := false

namespace Guarded

/-- A new clock. -/
def new (host : σ) : Guarded κ σ := ⟨⟨{}, host⟩, false⟩

/-! ## The rules -/

/-- Whoever calls the clock during a tick counts as a callback. -/
def caller (g : Guarded κ σ) : Caller := if g.dispatching then .callback else .owner

/-- What a script does, given what comes of a tick that it asks for.  A tick that fails makes the
script fail. -/
inductive Executes (ticks : Guarded κ σ → Option DispatchError → Guarded κ σ → Prop) :
    Script κ σ → Guarded κ σ → Option String → Guarded κ σ → Prop
  | done {g : Guarded κ σ} : Executes ticks .done g none g
  | fail {g : Guarded κ σ} {message : String} : Executes ticks (.fail message) g (some message) g
  | look {g g' : Guarded κ σ} {next : View → Script κ σ} {failure : Option String}
      (h : Executes ticks (next g.stage.clock.view) g failure g') :
      Executes ticks (.look next) g failure g'
  | act {g g' : Guarded κ σ} {effect : σ → Option String × σ} {next : Script κ σ} {host : σ}
      {failure : Option String} (he : effect g.stage.host = (none, host))
      (h : Executes ticks next { g with stage := { g.stage with host } } failure g') :
      Executes ticks (.act effect next) g failure g'
  | actFails {g : Guarded κ σ} {effect : σ → Option String × σ} {next : Script κ σ} {host : σ}
      {message : String} (he : effect g.stage.host = (some message, host)) :
      Executes ticks (.act effect next) g (some message) { g with stage := { g.stage with host } }
  | call {g g' : Guarded κ σ} {c : Call κ} {next : Except TimingError Nat → Script κ σ}
      {clock : Clock κ} {queued : Nat} {failure : Option String}
      (ha : g.stage.clock.answer g.caller c = .ok (clock, queued))
      (h : Executes ticks (next (.ok queued)) { g with stage := { g.stage with clock } } failure g') :
      Executes ticks (.call c next) g failure g'
  | refused {g g' : Guarded κ σ} {c : Call κ} {next : Except TimingError Nat → Script κ σ}
      {e : TimingError} {failure : Option String} (ha : g.stage.clock.answer g.caller c = .error e)
      (h : Executes ticks (next (.error e)) g failure g') :
      Executes ticks (.call c next) g failure g'
  | tick {g g₁ g' : Guarded κ σ} {next : Script κ σ} {failure : Option String}
      (ht : ticks g none g₁) (h : Executes ticks next g₁ failure g') :
      Executes ticks (.tick next) g failure g'
  | tickFails {g g' : Guarded κ σ} {next : Script κ σ} {e : DispatchError}
      (ht : ticks g (some e) g') : Executes ticks (.tick next) g (some e.message) g'

/-- The stage without the first callback of its queue. -/
def pop (g : Guarded κ σ) (rest : List (Entry κ)) : Guarded κ σ :=
  { g with stage := g.stage.pop rest }

/-- The loop of a tick, given what comes of the ticks inside it. -/
inductive Loops (ticks : Guarded κ σ → Option DispatchError → Guarded κ σ → Prop)
    (behave : κ → Script κ σ) :
    Guarded κ σ → Nat → Option DispatchError → Guarded κ σ → Prop
  | idle {tick : Nat} {g : Guarded κ σ} (h : ∀ e ∈ g.stage.clock.queue.head?, tick < e.due) :
      Loops ticks behave g tick none g
  | fails {tick : Nat} {g g' : Guarded κ σ} {e : Entry κ} {rest : List (Entry κ)} {source : String}
      (hq : g.stage.clock.queue = e :: rest) (he : e.due ≤ tick)
      (hx : Executes ticks (behave e.callback) (g.pop rest) (some source) g') :
      Loops ticks behave g tick (some ⟨tick, e.index, source⟩) g'
  | ends {tick : Nat} {g g' : Guarded κ σ} {e : Entry κ} {rest : List (Entry κ)}
      (hq : g.stage.clock.queue = e :: rest) (he : e.due ≤ tick)
      (hx : Executes ticks (behave e.callback) (g.pop rest) none g')
      (hend : g'.stage.clock.state = .terminated) : Loops ticks behave g tick none g'
  | next {tick : Nat} {g g₁ g' : Guarded κ σ} {e : Entry κ} {rest : List (Entry κ)}
      {error : Option DispatchError}
      (hq : g.stage.clock.queue = e :: rest) (he : e.due ≤ tick)
      (hx : Executes ticks (behave e.callback) (g.pop rest) none g₁)
      (hgoing : g₁.stage.clock.state ≠ .terminated) (h : Loops ticks behave g₁ tick error g') :
      Loops ticks behave g tick error g'

/-- A tick, whoever asks for it: nothing, unless the clock is running and no tick is under way. -/
inductive Ticks (behave : κ → Script κ σ) :
    Guarded κ σ → Option DispatchError → Guarded κ σ → Prop
  | ignored {g : Guarded κ σ} (h : g.stage.clock.state ≠ .running ∨ g.dispatching = true) :
      Ticks behave g none g
  | runs {g g' : Guarded κ σ} {error : Option DispatchError} (hrun : g.stage.clock.state = .running)
      (hfree : g.dispatching = false)
      (h : Loops (Ticks behave) behave { g with dispatching := true } g.stage.clock.now error g') :
      Ticks behave g error ⟨g'.stage.advance, false⟩

/-! ## Scripts under the flag -/

section

variable {behave : κ → Script κ σ} {s : Stage κ σ} {g' : Guarded κ σ}

theorem ticks_of_dispatching {error : Option DispatchError} :
    Ticks behave ⟨s, true⟩ error g' ↔ error = none ∧ g' = ⟨s, true⟩ := by
  constructor
  · intro h
    cases h with
    | ignored _ => exact ⟨rfl, rfl⟩
    | runs _ hfree _ => cases hfree
  · rintro ⟨rfl, rfl⟩
    exact .ignored (.inr rfl)

/-- Under the flag a script goes one way, and the flag stays up. -/
theorem executes_iff (script : Script κ σ) {failure : Option String} :
    Executes (Ticks behave) script ⟨s, true⟩ failure g' ↔
      failure = (script.exec s).1 ∧ g' = ⟨(script.exec s).2, true⟩ := by
  induction script generalizing s with
  | done =>
    constructor
    · rintro ⟨⟩
      exact ⟨rfl, rfl⟩
    · rintro ⟨rfl, rfl⟩
      exact .done
  | fail message =>
    constructor
    · rintro ⟨⟩
      exact ⟨rfl, rfl⟩
    · rintro ⟨rfl, rfl⟩
      exact .fail
  | look next ih =>
    rw [Script.exec, ← ih]
    constructor
    · rintro ⟨⟩
      assumption
    · intro h
      exact .look h
  | act effect next ih =>
    rw [Script.exec]
    rcases hx : effect s.host with ⟨_ | message, host⟩
    · rw [← ih]
      constructor
      · intro h
        cases h with
        | act he h =>
          cases hx.symm.trans he
          exact h
        | actFails he => cases hx.symm.trans he
      · intro h
        exact .act hx h
    · constructor
      · intro h
        cases h with
        | act he h => cases hx.symm.trans he
        | actFails he =>
          cases hx.symm.trans he
          exact ⟨rfl, rfl⟩
      · rintro ⟨rfl, rfl⟩
        exact .actFails hx
  | call c next ih =>
    rw [Script.exec]
    cases hx : s.clock.answer .callback c with
    | ok p =>
      obtain ⟨clock, queued⟩ := p
      rw [← ih]
      constructor
      · intro h
        cases h with
        | call ha h =>
          cases hx.symm.trans ha
          exact h
        | refused ha h => cases hx.symm.trans ha
      · intro h
        exact .call hx h
    | error e =>
      rw [← ih]
      constructor
      · intro h
        cases h with
        | call ha h => cases hx.symm.trans ha
        | refused ha h =>
          cases hx.symm.trans ha
          exact h
      · intro h
        exact .refused hx h
  | tick next ih =>
    -- the tick that the script asks for finds the flag up
    rw [Script.exec, ← ih]
    constructor
    · intro h
      cases h with
      | tick ht h =>
        obtain ⟨-, rfl⟩ := ticks_of_dispatching.1 ht
        exact h
      | tickFails ht =>
        obtain ⟨hnone, -⟩ := ticks_of_dispatching.1 ht
        cases hnone
    · intro h
      exact .tick (ticks_of_dispatching.2 ⟨rfl, rfl⟩) h

/-! ## Ticks -/

/-- Under the flag the loop is the one of the plain clock. -/
theorem Loops.loop {g : Guarded κ σ} {tick : Nat} {error : Option DispatchError}
    (h : Loops (Ticks behave) behave g tick error g') (hg : g.dispatching = true) :
    ∃ runs, Stage.Loop behave tick g.stage runs error g'.stage ∧ g'.dispatching = true := by
  induction h with
  | @idle tick g h => exact ⟨[], .idle h, hg⟩
  | @fails tick g g' e rest source hq he hx =>
    obtain ⟨s, flag⟩ := g
    cases hg
    obtain ⟨hfailure, rfl⟩ := (executes_iff (s := s.pop rest) _).1 hx
    have hstop : ¬ Stage.GoesOn behave (e, s.pop rest) := by
      rintro ⟨hnone, -⟩
      exact absurd (hfailure.trans hnone) (by simp)
    have hloop := Stage.Loop.stop hq he hstop
    rw [Stage.failure?, ← hfailure] at hloop
    exact ⟨_, hloop, rfl⟩
  | @ends tick g g' e rest hq he hx hend =>
    obtain ⟨s, flag⟩ := g
    cases hg
    obtain ⟨hfailure, rfl⟩ := (executes_iff (s := s.pop rest) _).1 hx
    have hstop : ¬ Stage.GoesOn behave (e, s.pop rest) := fun hgo => hgo.2 hend
    have hloop := Stage.Loop.stop hq he hstop
    rw [Stage.failure?, ← hfailure] at hloop
    exact ⟨_, hloop, rfl⟩
  | @next tick g g₁ g' e rest error hq he hx hgoing h ih =>
    obtain ⟨s, flag⟩ := g
    cases hg
    obtain ⟨hfailure, rfl⟩ := (executes_iff (s := s.pop rest) _).1 hx
    obtain ⟨runs, hloop, hflag⟩ := ih rfl
    exact ⟨_, .next hq he ⟨hfailure.symm, hgoing⟩ hloop, hflag⟩

theorem loops_of_loop {tick : Nat} {runs : List (Entry κ × Stage κ σ)}
    {error : Option DispatchError} {done : Stage κ σ} (h : Stage.Loop behave tick s runs error done) :
    Loops (Ticks behave) behave ⟨s, true⟩ tick error ⟨done, true⟩ := by
  induction h with
  | idle h => exact .idle h
  | @stop s e rest hq he hstop =>
    rcases hx : (behave e.callback).exec (s.pop rest) with ⟨_ | source, s'⟩
    · rw [Stage.failure?, hx]
      refine .ends hq he ((executes_iff _).2 ?_) ?_
      · rw [hx]
        exact ⟨rfl, rfl⟩
      · by_contra hgoing
        refine hstop ⟨?_, ?_⟩
        · rw [hx]
        · rw [hx]
          exact hgoing
    · rw [Stage.failure?, hx]
      refine .fails hq he ((executes_iff _).2 ?_)
      rw [hx]
      exact ⟨rfl, rfl⟩
  | next hq he hgo _ ih =>
    exact .next hq he ((executes_iff _).2 ⟨hgo.1.symm, rfl⟩) hgo.2 ih

/-- A tick by the owner goes one way, and the flag is down again, even if a callback failed or ended
the clock. -/
theorem ticks_iff (hs : s.clock.Sound) {error : Option DispatchError} :
    Ticks behave ⟨s, false⟩ error g' ↔
      error = (s.tick behave).1.error ∧ g' = ⟨(s.tick behave).2, false⟩ := by
  rw [Stage.tick]
  by_cases hrun : s.clock.state = .running
  · rw [if_pos hrun]
    obtain ⟨-, hloop⟩ := Stage.loop_dispatch behave hs hs.dueCount_le
    constructor
    · intro h
      cases h with
      | ignored h => exact absurd hrun (h.resolve_right Bool.false_ne_true)
      | @runs _ g' _ _ _ h =>
        obtain ⟨runs, hloop', -⟩ := h.loop rfl
        obtain ⟨-, rfl, hdone⟩ := hloop'.unique hloop
        rw [hdone]
        exact ⟨rfl, rfl⟩
    · rintro ⟨rfl, rfl⟩
      exact .runs hrun rfl (loops_of_loop hloop)
  · rw [if_neg hrun]
    constructor
    · intro h
      cases h with
      | ignored _ => exact ⟨rfl, rfl⟩
      | runs hrun' _ _ => exact absurd hrun' hrun
    · rintro ⟨rfl, rfl⟩
      exact .ignored (.inl hrun)

end

end Guarded

/-! ## What the owner sees -/

/-- What a move asks of the clock, or why it cannot; a tick asks nothing. -/
def Move.call? : Move κ → Option (Except TimingError (Call κ))
  | .run first => some (.ok (.run first))
  | .schedule offset callback => some (.ok (.schedule offset callback))
  | .bind r cue events => some ((r.cues cue events).map .scheduleAll)
  | .terminate => some (.ok .terminate)
  | .tick => none

/-- What the owner hears of a move. -/
inductive Reply where
  | queued (count : Nat)
  | refused (e : TimingError)
  | ticked (error : Option DispatchError)
deriving DecidableEq

/-- What the owner hears of a move and can see after it. -/
structure Glimpse (σ : Type) where
  reply : Reply
  view : View
  host : σ

/-- A move on the guarded clock, what the owner hears of it, and what it leaves. -/
inductive Guarded.Moves (behave : κ → Script κ σ) :
    Guarded κ σ → Move κ → Reply → Guarded κ σ → Prop
  | answered {g : Guarded κ σ} {m : Move κ} {call : Call κ} {clock : Clock κ} {queued : Nat}
      (hm : m.call? = some (.ok call))
      (ha : g.stage.clock.answer g.caller call = .ok (clock, queued)) :
      Moves behave g m (.queued queued) { g with stage := { g.stage with clock } }
  | refused {g : Guarded κ σ} {m : Move κ} {call : Call κ} {e : TimingError}
      (hm : m.call? = some (.ok call)) (ha : g.stage.clock.answer g.caller call = .error e) :
      Moves behave g m (.refused e) g
  | unasked {g : Guarded κ σ} {m : Move κ} {e : TimingError} (hm : m.call? = some (.error e)) :
      Moves behave g m (.refused e) g
  | ticked {g g' : Guarded κ σ} {error : Option DispatchError} (h : Ticks behave g error g') :
      Moves behave g .tick (.ticked error) g'

/-- All that the owner can see of some moves on the guarded clock. -/
inductive Guarded.Watched (behave : κ → Script κ σ) :
    Guarded κ σ → List (Move κ) → List (Glimpse σ) → Prop
  | nil {g : Guarded κ σ} : Watched behave g [] []
  | cons {g g' : Guarded κ σ} {m : Move κ} {moves : List (Move κ)} {reply : Reply}
      {seen : List (Glimpse σ)} (hm : Moves behave g m reply g') (h : Watched behave g' moves seen) :
      Watched behave g (m :: moves) (⟨reply, g'.stage.clock.view, g'.stage.host⟩ :: seen)

namespace Course

/-- What the owner of the plain clock hears of a move. -/
def reply (behave : κ → Script κ σ) (r : Course κ σ) (m : Move κ) : Reply :=
  match m.call? with
  | some (.ok call) =>
    match r.stage.clock.answer .owner call with
    | .ok (_, queued) => .queued queued
    | .error e => .refused e
  | some (.error e) => .refused e
  | none => .ticked (r.stage.tick behave).1.error

/-- All that the owner of the plain clock can see of some moves. -/
def glimpses (behave : κ → Script κ σ) : Course κ σ → List (Move κ) → List (Glimpse σ)
  | _, [] => []
  | r, m :: moves =>
    ⟨r.reply behave m, (r.move behave m).stage.clock.view, (r.move behave m).stage.host⟩ ::
      (r.move behave m).glimpses behave moves

/-- All that the owner of a new plain clock can see of some moves. -/
def sight (behave : κ → Script κ σ) (host : σ) (moves : List (Move κ)) : List (Glimpse σ) :=
  glimpses behave ⟨⟨{}, host⟩, {}⟩ moves

variable {behave : κ → Script κ σ} {r : Course κ σ} {m : Move κ}

theorem eq_tick (h : m.call? = none) : m = .tick := by
  cases m with
  | tick => rfl
  | _ => cases h

theorem move_of_call {call : Call κ} (h : m.call? = some (.ok call)) :
    r.move behave m = r.ask call := by
  cases m with
  | bind resolution cue events =>
    rw [Move.call?] at h
    rw [move]
    cases hcues : resolution.cues cue events with
    | ok callbacks =>
      rw [hcues] at h
      cases h
      rfl
    | error e =>
      rw [hcues] at h
      cases h
  | tick => cases h
  | _ =>
    cases h
    rfl

theorem move_of_unasked {e : TimingError} (h : m.call? = some (.error e)) : r.move behave m = r := by
  cases m with
  | bind resolution cue events =>
    rw [Move.call?] at h
    rw [move]
    cases hcues : resolution.cues cue events with
    | ok callbacks =>
      rw [hcues] at h
      cases h
    | error e => rfl
  | _ => cases h

theorem reply_of_unasked {e : TimingError} (h : m.call? = some (.error e)) :
    r.reply behave m = .refused e := by
  rw [reply, h]

theorem stage_ask_of_ok {call : Call κ} {clock : Clock κ} {queued : Nat}
    (h : r.stage.clock.answer .owner call = .ok (clock, queued)) :
    (r.ask call).stage = { r.stage with clock } := by
  unfold ask Stage.call
  rw [h]
  rfl

theorem reply_of_ok {call : Call κ} {clock : Clock κ} {queued : Nat}
    (hm : m.call? = some (.ok call))
    (h : r.stage.clock.answer .owner call = .ok (clock, queued)) :
    r.reply behave m = .queued queued := by
  simp only [reply, hm, h]

theorem stage_ask_of_error {call : Call κ} {e : TimingError}
    (h : r.stage.clock.answer .owner call = .error e) : (r.ask call).stage = r.stage := by
  unfold ask Stage.call
  rw [h]
  rfl

theorem reply_of_error {call : Call κ} {e : TimingError} (hm : m.call? = some (.ok call))
    (h : r.stage.clock.answer .owner call = .error e) : r.reply behave m = .refused e := by
  simp only [reply, hm, h]

end Course

namespace Guarded

variable {behave : κ → Script κ σ} {host : σ}

/-- The flag is down between moves, and a move does what it does to the plain clock. -/
theorem moves_iff {r : Course κ σ} (hs : r.stage.clock.Sound) {m : Move κ} {reply : Reply}
    {g' : Guarded κ σ} :
    Moves behave ⟨r.stage, false⟩ m reply g' ↔
      reply = r.reply behave m ∧ g' = ⟨(r.move behave m).stage, false⟩ := by
  constructor
  · intro h
    cases h with
    | @answered _ call clock queued hm ha =>
      have ha : r.stage.clock.answer .owner call = .ok (clock, queued) := ha
      rw [Course.reply_of_ok hm ha, Course.move_of_call hm, Course.stage_ask_of_ok ha]
      exact ⟨rfl, rfl⟩
    | @refused _ call e hm ha =>
      have ha : r.stage.clock.answer .owner call = .error e := ha
      rw [Course.reply_of_error hm ha, Course.move_of_call hm, Course.stage_ask_of_error ha]
      exact ⟨rfl, rfl⟩
    | unasked hm =>
      rw [Course.reply_of_unasked hm, Course.move_of_unasked hm]
      exact ⟨rfl, rfl⟩
    | ticked h =>
      obtain ⟨rfl, rfl⟩ := (ticks_iff hs).1 h
      rw [Course.move, Course.stage_tick]
      exact ⟨rfl, rfl⟩
  · rintro ⟨rfl, rfl⟩
    cases hm : m.call? with
    | none =>
      obtain rfl := Course.eq_tick hm
      rw [Course.move, Course.stage_tick]
      exact .ticked ((ticks_iff hs).2 ⟨rfl, rfl⟩)
    | some asked =>
      cases asked with
      | error e =>
        rw [Course.reply_of_unasked hm, Course.move_of_unasked hm]
        exact .unasked hm
      | ok call =>
        cases ha : r.stage.clock.answer .owner call with
        | error e =>
          rw [Course.reply_of_error hm ha, Course.move_of_call hm, Course.stage_ask_of_error ha]
          exact .refused hm ha
        | ok p =>
          obtain ⟨clock, queued⟩ := p
          rw [Course.reply_of_ok hm ha, Course.move_of_call hm, Course.stage_ask_of_ok ha]
          exact .answered hm ha

/-- From any moment on, the owner sees what the owner of the plain clock sees, and nothing else. -/
theorem watched_iff (before : List (Move κ)) {moves : List (Move κ)} {seen : List (Glimpse σ)} :
    Watched behave ⟨(Course.after behave host before).stage, false⟩ moves seen ↔
      seen = (Course.after behave host before).glimpses behave moves := by
  induction moves generalizing before seen with
  | nil =>
    constructor
    · rintro ⟨⟩
      rfl
    · rintro rfl
      exact .nil
  | cons m moves ih =>
    have hs := (Course.orderly_after behave host before).sound
    have hnext : (Course.after behave host before).move behave m =
        Course.after behave host (before ++ [m]) := (Course.after_append behave host before [m]).symm
    rw [Course.glimpses]
    constructor
    · intro h
      cases h with
      | cons hm h =>
        obtain ⟨rfl, rfl⟩ := (moves_iff hs).1 hm
        rw [hnext] at h ⊢
        rw [(ih _).1 h]
    · rintro rfl
      refine .cons ((moves_iff hs).2 ⟨rfl, rfl⟩) ?_
      rw [hnext]
      exact (ih _).2 rfl

theorem watched_new_iff {moves : List (Move κ)} {seen : List (Glimpse σ)} :
    Watched behave (.new host) moves seen ↔ seen = Course.sight behave host moves :=
  watched_iff []

end Guarded

end Stave
