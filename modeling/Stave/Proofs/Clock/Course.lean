import Stave.Proofs.Clock.Queue
import Stave.Sequencer

/-!
# The course of a clock

A course is all that happens to a new clock: its owner makes move after move, and in the ticks
among them callbacks run that call the clock themselves.  The chronicle of a course keeps every
callback that was ever put in the queue, every one that was dispatched, and every failure.

    c.enqueue caller offset callback =
      c with the entry of that request inserted                           (enqueue_eq)
    c.answer caller call = .ok (c', n) → c' is c ended, or c itself if it
      was terminated, or c with what the call wants queued                (answer_cases)
-/

namespace Stave

variable {κ σ : Type}

/-! ## Chronicles -/

/-- A callback put in the queue: by whom, on which tick, and how many ticks ahead. -/
structure Request (κ : Type) where
  caller : Caller
  now : Nat
  offset : Nat
  index : Nat
  callback : κ

/-- What the owner asks for may be due at once, what a callback asks for on the next tick. -/
def Request.due (r : Request κ) : Nat :=
  match r.caller with
  | .owner => r.now + r.offset
  | .callback => max (r.now + r.offset) (r.now + 1)

theorem Request.due_eq (r : Request κ) : r.due = r.now + max r.offset r.caller.lead := by
  obtain ⟨caller, now, offset, index, callback⟩ := r
  cases caller
  · show now + offset = now + max offset 0
    omega
  · show max (now + offset) (now + 1) = now + max offset 1
    omega

def Request.entry (r : Request κ) : Entry κ := ⟨r.due, r.index, r.callback⟩

/-- A callback taken from the queue, and the tick on which it ran. -/
structure Dispatch (κ : Type) where
  tick : Nat
  entry : Entry κ

structure Chronicle (κ : Type) where
  requests : List (Request κ) := []
  dispatched : List (Dispatch κ) := []
  failures : List DispatchError := []

namespace Chronicle

def ask (log : Chronicle κ) (rs : List (Request κ)) : Chronicle κ :=
  { log with requests := log.requests ++ rs }

def take (log : Chronicle κ) (tick : Nat) (es : List (Entry κ)) : Chronicle κ :=
  { log with dispatched := log.dispatched ++ es.map (Dispatch.mk tick) }

def fail (log : Chronicle κ) (errors : List DispatchError) : Chronicle κ :=
  { log with failures := log.failures ++ errors }

@[simp] theorem ask_nil (log : Chronicle κ) : log.ask [] = log := by
  simp [ask]

theorem ask_append (log : Chronicle κ) (rs rs' : List (Request κ)) :
    log.ask (rs ++ rs') = (log.ask rs).ask rs' := by
  simp [ask]

@[simp] theorem take_nil (log : Chronicle κ) (tick : Nat) : log.take tick [] = log := by
  simp [take]

@[simp] theorem fail_nil (log : Chronicle κ) : log.fail [] = log := by
  simp [fail]

theorem take_cons (log : Chronicle κ) (tick : Nat) (e : Entry κ) (es : List (Entry κ)) :
    log.take tick (e :: es) = (log.take tick [e]).take tick es := by
  simp [take]

@[simp] theorem map_entry_take (log : Chronicle κ) (tick : Nat) (es : List (Entry κ)) :
    (log.take tick es).dispatched.map Dispatch.entry = log.dispatched.map Dispatch.entry ++ es := by
  rw [take, List.map_append, List.map_map]
  exact congrArg _ (List.map_id es)

theorem take_ask (log : Chronicle κ) (tick : Nat) (es : List (Entry κ)) (rs : List (Request κ)) :
    (log.take tick es).ask rs = (log.ask rs).take tick es := rfl

end Chronicle

/-! ## What is asked of a clock -/

/-- The callbacks that a call would queue, with their offsets. -/
def Call.wanted : Call κ → List (Nat × κ)
  | .run none => []
  | .run (some callback) => [(0, callback)]
  | .schedule offset callback => if offset < 0 then [] else [(offset.toNat, callback)]
  | .scheduleAll callbacks => callbacks
  | .terminate => []

namespace Clock

/-- Requests made together, numbered from the next index. -/
def requests (c : Clock κ) (caller : Caller) (callbacks : List (Nat × κ)) : List (Request κ) :=
  (callbacks.zipIdx c.nextIndex).map fun ((offset, callback), index) =>
    ⟨caller, c.now, offset, index, callback⟩

/-- What a call does queue. -/
def asked (c : Clock κ) (caller : Caller) (call : Call κ) : List (Request κ) :=
  if c.state = .terminated then [] else c.requests caller call.wanted

/-- The entry that is queued is the one requested. -/
theorem enqueue_eq (c : Clock κ) (caller : Caller) (offset : Nat) (callback : κ) :
    c.enqueue caller offset callback =
      { c with
        queue := Entry.insert (Request.mk caller c.now offset c.nextIndex callback).entry c.queue
        nextIndex := c.nextIndex + 1 } := by
  rw [enqueue, Request.entry, Request.due_eq]

theorem enqueueAll_cons (c : Clock κ) (caller : Caller) (offset : Nat) (callback : κ)
    (callbacks : List (Nat × κ)) : c.enqueueAll caller ((offset, callback) :: callbacks) =
      (c.enqueue caller offset callback).enqueueAll caller callbacks := rfl

theorem requests_cons (c : Clock κ) (caller : Caller) (offset : Nat) (callback : κ)
    (callbacks : List (Nat × κ)) : c.requests caller ((offset, callback) :: callbacks) =
      ⟨caller, c.now, offset, c.nextIndex, callback⟩ ::
        (c.enqueue caller offset callback).requests caller callbacks := rfl

theorem map_index_requests (c : Clock κ) (caller : Caller) (callbacks : List (Nat × κ)) :
    ((c.requests caller callbacks).map Request.entry).map Entry.index =
      List.range' c.nextIndex callbacks.length := by
  rw [Clock.requests, List.map_map, List.map_map, ← List.zipIdx_map_snd c.nextIndex callbacks]
  rfl

theorem map_due_requests (c : Clock κ) (caller : Caller) (callbacks : List (Nat × κ)) :
    ((c.requests caller callbacks).map Request.entry).map (fun e => (e.due, e.callback)) =
      callbacks.map fun (offset, callback) => (c.now + max offset caller.lead, callback) := by
  conv => rhs; rw [← List.zipIdx_map_fst c.nextIndex callbacks]
  rw [Clock.requests, List.map_map, List.map_map, List.map_map]
  refine List.map_congr_left fun ⟨⟨offset, callback⟩, index⟩ _ => ?_
  exact Prod.ext (Request.due_eq _) rfl

/-- The requested entries join the queue, and nothing else changes. -/
theorem enqueueAll_spec (c : Clock κ) (caller : Caller) (callbacks : List (Nat × κ)) :
    (c.enqueueAll caller callbacks).now = c.now ∧
    (c.enqueueAll caller callbacks).state = c.state ∧
    (c.enqueueAll caller callbacks).nextIndex = c.nextIndex + callbacks.length ∧
    (c.enqueueAll caller callbacks).queue.Perm
      (c.queue ++ (c.requests caller callbacks).map Request.entry) := by
  induction callbacks generalizing c with
  | nil => exact ⟨rfl, rfl, rfl, List.Perm.of_eq (List.append_nil _).symm⟩
  | cons p ps ih =>
    obtain ⟨offset, callback⟩ := p
    obtain ⟨hnow, hstate, hindex, hqueue⟩ := ih (c.enqueue caller offset callback)
    rw [enqueueAll_cons, requests_cons]
    refine ⟨hnow, hstate, ?_, hqueue.trans ?_⟩
    · rw [hindex, List.length_cons]
      show c.nextIndex + 1 + ps.length = _
      omega
    · rw [enqueue_eq, List.map_cons]
      exact ((Entry.insert_perm _ c.queue).append_right _).trans List.perm_middle.symm

/-- A terminated clock ignores what it is asked for. -/
theorem ignored_or_done {c c' d : Clock κ} {queued n : Nat}
    (h : (if c.state = .terminated then .ok (c, 0) else .ok (d, n) : Except TimingError _) =
      .ok (c', queued)) :
    (c.state = .terminated ∧ c' = c ∧ queued = 0) ∨
    (c.state ≠ .terminated ∧ c' = d ∧ queued = n) := by
  by_cases hs : c.state = .terminated
  · rw [if_pos hs] at h
    cases h
    exact .inl ⟨hs, rfl, rfl⟩
  · rw [if_neg hs] at h
    cases h
    exact .inr ⟨hs, rfl, rfl⟩

/-- All that a call can do, unless it is refused. -/
theorem answer_cases {c c' : Clock κ} {caller : Caller} {call : Call κ} {queued : Nat}
    (h : c.answer caller call = .ok (c', queued)) :
    (call = .terminate ∧ c' = { c with state := .terminated, queue := [] } ∧ queued = 0) ∨
    (c.state = .terminated ∧ c' = c ∧ queued = 0) ∨
    (c.state ≠ .terminated ∧ queued = call.wanted.length ∧
      (c' = c.enqueueAll caller call.wanted ∨
        c' = { c with state := .running }.enqueueAll caller call.wanted)) := by
  rcases call with (_ | callback) | ⟨offset, callback⟩ | callbacks | _
  · rcases ignored_or_done h with hignored | ⟨hs, rfl, rfl⟩
    · exact .inr (.inl hignored)
    · exact .inr (.inr ⟨hs, rfl, .inr rfl⟩)
  · rcases ignored_or_done h with hignored | ⟨hs, rfl, rfl⟩
    · exact .inr (.inl hignored)
    · exact .inr (.inr ⟨hs, rfl, .inr rfl⟩)
  · by_cases ho : offset < 0
    · rw [answer, if_pos ho] at h
      cases h
    · rw [answer, if_neg ho] at h
      have hw : (Call.schedule offset callback).wanted = [(offset.toNat, callback)] := if_neg ho
      rw [hw]
      rcases ignored_or_done h with hignored | ⟨hs, rfl, rfl⟩
      · exact .inr (.inl hignored)
      · exact .inr (.inr ⟨hs, rfl, .inl rfl⟩)
  · rcases ignored_or_done h with hignored | ⟨hs, rfl, rfl⟩
    · exact .inr (.inl hignored)
    · exact .inr (.inr ⟨hs, rfl, .inl rfl⟩)
  · cases h
    exact .inl ⟨rfl, rfl, rfl⟩

end Clock

/-- What a script queues when it runs on a stage. -/
def Script.requests : Script κ σ → Stage κ σ → List (Request κ)
  | .done, _ => []
  | .fail _, _ => []
  | .look next, s => (next s.clock.view).requests s
  | .act effect next, s =>
    match effect s.host with
    | (none, host) => next.requests { s with host }
    | (some _, _) => []
  | .call c next, s =>
    match s.clock.answer .callback c with
    | .ok (clock, queued) =>
      s.clock.asked .callback c ++ (next (.ok queued)).requests { s with clock }
    | .error e => (next (.error e)).requests s
  | .tick next, s => next.requests s

namespace Stage

/-- The stage without the first callback of its queue. -/
def pop (s : Stage κ σ) (rest : List (Entry κ)) : Stage κ σ :=
  { s with clock := { s.clock with queue := rest } }

/-- The callbacks that a dispatch takes from the queue, each with the stage on which it runs. -/
def performances (behave : κ → Script κ σ) : Nat → Stage κ σ → List (Entry κ × Stage κ σ)
  | 0, _ => []
  | n + 1, s =>
    match s.clock.queue with
    | [] => []
    | e :: rest =>
      if e.due ≤ s.clock.now then
        (e, s.pop rest) ::
          match (behave e.callback).exec (s.pop rest) with
          | (some _, _) => []
          | (none, s) => if s.clock.state = .terminated then [] else performances behave n s
      else []

/-- What these callbacks queue. -/
def requests (behave : κ → Script κ σ) (n : Nat) (s : Stage κ σ) : List (Request κ) :=
  (s.performances behave n).flatMap fun (e, s) => (behave e.callback).requests s

/-- A dispatch has nothing to do, or its first callback fails, or ends the clock, or another
dispatch follows. -/
@[elab_as_elim]
theorem dispatch_induct (behave : κ → Script κ σ) {motive : Nat → Stage κ σ → Prop}
    (idle : ∀ n s, (n = 0 ∨ ∀ e ∈ s.clock.queue.head?, s.clock.now < e.due) →
      s.dispatch behave n = ({}, s) → s.performances behave n = [] → motive n s)
    (fails : ∀ n s e rest source s', s.clock.queue = e :: rest → e.due ≤ s.clock.now →
      (behave e.callback).exec (s.pop rest) = (some source, s') →
      s.dispatch behave (n + 1) = (⟨[e], some ⟨s'.clock.now, e.index, source⟩⟩, s') →
      s.performances behave (n + 1) = [(e, s.pop rest)] → motive (n + 1) s)
    (ends : ∀ n s e rest s', s.clock.queue = e :: rest → e.due ≤ s.clock.now →
      (behave e.callback).exec (s.pop rest) = (none, s') → s'.clock.state = .terminated →
      s.dispatch behave (n + 1) = (⟨[e], none⟩, s') →
      s.performances behave (n + 1) = [(e, s.pop rest)] → motive (n + 1) s)
    (next : ∀ n s e rest s', s.clock.queue = e :: rest → e.due ≤ s.clock.now →
      (behave e.callback).exec (s.pop rest) = (none, s') → s'.clock.state ≠ .terminated →
      s.dispatch behave (n + 1) =
        ({ (s'.dispatch behave n).1 with dispatched := e :: (s'.dispatch behave n).1.dispatched },
          (s'.dispatch behave n).2) →
      s.performances behave (n + 1) = (e, s.pop rest) :: s'.performances behave n →
      motive n s' → motive (n + 1) s)
    (n : Nat) (s : Stage κ σ) : motive n s := by
  induction n generalizing s with
  | zero => exact idle 0 s (.inl rfl) rfl rfl
  | succ n ih =>
    have hd := dispatch.eq_2 behave s n
    have hp := performances.eq_2 behave s n
    cases hq : s.clock.queue with
    | nil =>
      simp only [hq] at hd hp
      exact idle (n + 1) s (.inr (by rw [hq]; nofun)) hd hp
    | cons e rest =>
      simp only [hq] at hd hp
      by_cases he : e.due ≤ s.clock.now
      · rw [if_pos he] at hd hp
        change _ = match (behave e.callback).exec (s.pop rest) with
          | (some source, s') => _
          | (none, s') => _ at hd
        rcases hx : (behave e.callback).exec (s.pop rest) with ⟨_ | source, s'⟩
        · rw [hx] at hd hp
          by_cases hs' : s'.clock.state = .terminated
          · simp only [if_pos hs'] at hd hp
            exact ends n s e rest s' hq he hx hs' hd hp
          · simp only [if_neg hs'] at hd hp
            exact next n s e rest s' hq he hx hs' hd hp (ih s')
        · rw [hx] at hd hp
          exact fails n s e rest source s' hq he hx hd hp
      · rw [if_neg he] at hd hp
        refine idle (n + 1) s (.inr ?_) hd hp
        rw [hq]
        rintro f hf
        cases hf
        omega

end Stage

namespace Stage

/-- The stage after some ticks. -/
def ticks (behave : κ → Script κ σ) : Nat → Stage κ σ → Stage κ σ
  | 0, s => s
  | k + 1, s => ticks behave k (s.tick behave).2

/-- The callbacks that some ticks run, each with the stage on which it runs. -/
def performed (behave : κ → Script κ σ) : Nat → Stage κ σ → List (Entry κ × Stage κ σ)
  | 0, _ => []
  | k + 1, s =>
    (if s.clock.state = .running then s.performances behave s.clock.due.length else []) ++
      performed behave k (s.tick behave).2

end Stage

/-! ## Courses -/

/-- What the owner of a clock can do with it. -/
inductive Move (κ : Type) where
  | run (first : Option κ)
  | schedule (offset : Int) (callback : κ)
  | bind (r : Resolution) (cue : Cue → κ) (events : List Event)
  | terminate
  | tick

/-- A clock, the host of its callbacks, and what has happened so far. -/
structure Course (κ σ : Type) where
  stage : Stage κ σ
  log : Chronicle κ := {}

namespace Course

/-- The course after a call that was not refused. -/
def ask (r : Course κ σ) (call : Call κ) : Course κ σ :=
  match r.stage.call call with
  | .ok (stage, _) => ⟨stage, r.log.ask (r.stage.clock.asked .owner call)⟩
  | .error _ => r

/-- The course after a tick by the owner. -/
def tick (behave : κ → Script κ σ) (r : Course κ σ) : Course κ σ :=
  if r.stage.clock.state = .running then
    let (report, stage) := r.stage.tick behave
    ⟨stage, ((r.log.ask (r.stage.requests behave r.stage.clock.due.length)).take r.stage.clock.now
      report.dispatched).fail report.error.toList⟩
  else r

def move (behave : κ → Script κ σ) (r : Course κ σ) : Move κ → Course κ σ
  | .run first => r.ask (.run first)
  | .schedule offset callback => r.ask (.schedule offset callback)
  | .bind resolution cue events =>
    match resolution.cues cue events with
    | .ok callbacks => r.ask (.scheduleAll callbacks)
    | .error _ => r
  | .terminate => r.ask .terminate
  | .tick => r.tick behave

theorem stage_bind (behave : κ → Script κ σ) (r : Course κ σ) (resolution : Resolution)
    (cue : Cue → κ) (events : List Event) :
    (r.move behave (.bind resolution cue events)).stage =
      match resolution.bind cue events .owner r.stage.clock with
      | .ok (clock, _) => { r.stage with clock }
      | .error _ => r.stage := by
  rw [move, Resolution.bind]
  cases resolution.cues cue events with
  | error e => rfl
  | ok callbacks =>
    show (r.ask _).stage = match r.stage.clock.answer .owner (.scheduleAll callbacks) with
      | .ok (clock, _) => { r.stage with clock }
      | .error _ => r.stage
    unfold ask Stage.call
    cases r.stage.clock.answer .owner (.scheduleAll callbacks) <;> rfl

theorem stage_run (r : Course κ σ) (h : r.stage.clock.state ≠ .terminated) :
    (r.ask (.run none)).stage =
      { r.stage with clock := { r.stage.clock with state := .running } } := by
  have ha : r.stage.clock.answer .owner (.run none) =
      .ok ({ r.stage.clock with state := .running }, 0) := if_neg h
  unfold ask Stage.call
  rw [ha]
  rfl

theorem stage_tick (behave : κ → Script κ σ) (r : Course κ σ) :
    (r.tick behave).stage = (r.stage.tick behave).2 := by
  by_cases h : r.stage.clock.state = .running
  · rw [tick, if_pos h]
  · rw [tick, if_neg h, Stage.tick, if_neg h]

/-- A new clock on which the owner has made some moves. -/
def after (behave : κ → Script κ σ) (host : σ) (moves : List (Move κ)) : Course κ σ :=
  moves.foldl (move behave) ⟨⟨{}, host⟩, {}⟩

theorem after_append (behave : κ → Script κ σ) (host : σ) (moves more : List (Move κ)) :
    after behave host (moves ++ more) = more.foldl (move behave) (after behave host moves) :=
  List.foldl_append

end Course

end Stave
