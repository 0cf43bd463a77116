import Stave.Proofs.Clock.Course
import Stave.Session

/-!
# Sessions are courses

Whatever an owner does in a session, the owner of a clock can do in moves, so all that holds of
every course holds of every session.

    (op.perform r.stage).2 = (op.moves.foldl (move behave) r).stage       (perform_eq)
    a session of operations ends on the stage after their moves           (session_eq)
-/

namespace Stave

namespace Session

def Operation.moves : Operation → List (Move Callback)
  | .run action => [.run (action.map .action)]
  | .schedule offset action => [.schedule offset (.action action)]
  | .tick count => List.replicate count .tick
  | .terminate => [.terminate]
  | .bind ticksPerBeat events =>
    match Resolution.build ticksPerBeat with
    | .ok r => [.bind r .cue events]
    | .error _ => []

theorem ask_eq (r : Course Callback Host) (call : Call Callback) (answer : Nat → Answer) :
    (ask r.stage call answer).2 = (r.ask call).stage := by
  unfold ask Course.ask
  cases r.stage.call call <;> rfl

theorem ticks_eq (count : Nat) (r : Course Callback Host) :
    (ticks count r.stage).2 = ((List.replicate count .tick).foldl (Course.move behave) r).stage := by
  induction count with
  | zero => rfl
  | succ n ih =>
    rw [List.replicate_succ', List.foldl_append]
    show ((ticks n r.stage).2.tick behave).2 = (Course.tick behave _).stage
    rw [Course.stage_tick, ih]

theorem perform_eq (r : Course Callback Host) (op : Operation) :
    (op.perform r.stage).2 = (op.moves.foldl (Course.move behave) r).stage := by
  cases op with
  | run action => exact ask_eq r _ _
  | schedule offset action => exact ask_eq r _ _
  | tick count => exact ticks_eq count r
  | terminate => exact ask_eq r _ _
  | bind ticksPerBeat events =>
    simp only [Operation.perform, Operation.moves, cuesOf]
    cases Resolution.build ticksPerBeat with
    | error e => rfl
    | ok resolution =>
      have hcues : (Except.ok resolution >>= fun resolution => resolution.cues Callback.cue events) =
          resolution.cues Callback.cue events := rfl
      rw [hcues, List.foldl_cons, List.foldl_nil, Course.move]
      cases resolution.cues Callback.cue events with
      | error e => rfl
      | ok cues => exact ask_eq r _ _

theorem operations_eq (r : Course Callback Host) (ops : List Operation) :
    ops.foldl (fun s op => (op.perform s).2) r.stage =
      ((ops.flatMap Operation.moves).foldl (Course.move behave) r).stage := by
  induction ops generalizing r with
  | nil => rfl
  | cons op ops ih =>
    rw [List.foldl_cons, List.flatMap_cons, List.foldl_append, perform_eq, ih]

/-- Every session is a course. -/
theorem session_eq (failing : List Nat) (ops : List Operation) :
    ops.foldl (fun s op => (op.perform s).2) (State.start failing) =
      (Course.after behave { sink := { failing } } (ops.flatMap Operation.moves)).stage :=
  operations_eq ⟨State.start failing, {}⟩ ops

end Session

end Stave
