import Stave.Scale

/-!
# Places on a scale

A pitch is at or above exactly one degree: locating it and climbing back from the degree gives the
pitch again, as long as its distance to the root is one that 64 bits hold.

    (climb steps h).2 + rise of the steps climbed = h                     (rise_climb)
    h < rise of one step more                                             (lt_rise_climb)
    s.degreePitch (s.locate p).1 s.rootOctave + (s.locate p).2 =
      s.root + clamp (p - s.root)                                         (degreePitch_locate)
-/

namespace Stave.Scale

variable {steps : List Nat} {height : Nat}

/-! ## Climbing -/

theorem climb_cons_of_lt {step : Nat} (h : height < step) :
    climb (step :: steps) height = (0, height) := if_pos h

theorem climb_cons_of_le {step : Nat} (h : step ≤ height) :
    climb (step :: steps) height =
      ((climb steps (height - step)).1 + 1, (climb steps (height - step)).2) :=
  if_neg (Nat.not_lt.2 h)

/-- What the climb does not reach is left above it. -/
theorem rise_climb (steps : List Nat) (height : Nat) :
    rise (steps.take (climb steps height).1) + (climb steps height).2 = height := by
  induction steps generalizing height with
  | nil => exact Nat.zero_add height
  | cons step steps ih =>
    by_cases h : height < step
    · rw [climb_cons_of_lt h]
      exact Nat.zero_add height
    · have hle := Nat.not_lt.1 h
      have hrest := ih (height - step)
      rw [climb_cons_of_le hle, List.take_succ_cons, rise]
      omega

/-- A height below the top is reached before the steps run out. -/
theorem climb_lt_length (h : height < rise steps) : (climb steps height).1 < steps.length := by
  induction steps generalizing height with
  | nil => exact absurd h (Nat.not_lt_zero _)
  | cons step steps ih =>
    by_cases hlt : height < step
    · rw [climb_cons_of_lt hlt]
      exact Nat.zero_lt_succ _
    · have hle := Nat.not_lt.1 hlt
      rw [rise] at h
      have hbelow : height - step < rise steps := by omega
      have hrest := ih hbelow
      rw [climb_cons_of_le hle, List.length_cons]
      omega

/-- The next step would lead past the height. -/
theorem lt_rise_climb (h : height < rise steps) :
    height < rise (steps.take ((climb steps height).1 + 1)) := by
  induction steps generalizing height with
  | nil => exact absurd h (Nat.not_lt_zero _)
  | cons step steps ih =>
    by_cases hlt : height < step
    · rw [climb_cons_of_lt hlt]
      exact Nat.lt_add_right _ hlt
    · have hle := Nat.not_lt.1 hlt
      rw [rise] at h
      have hbelow : height - step < rise steps := by omega
      have hrest := ih hbelow
      rw [climb_cons_of_le hle]
      show height < step + rise (steps.take ((climb steps (height - step)).1 + 1))
      omega

/-! ## Degrees and back -/

/-- A degree counted from the root, in turns and a place on the scale. -/
theorem degreePitch_root_octave (s : Scale) (turns : Int) {index : Nat} (h : index < s.size) :
    s.degreePitch (turns * s.size + index) s.rootOctave =
      s.root + s.span * turns + s.offset index := by
  have hsize : (0 : Int) < s.size := by exact_mod_cast s.size_pos
  have hindex : (index : Int) < s.size := by exact_mod_cast h
  have hturns : (turns * s.size + index) / (s.size : Int) = turns := by
    rw [Int.add_comm, Int.add_mul_ediv_right _ _ (by omega), Int.ediv_eq_zero_of_lt (by omega) hindex,
      Int.zero_add]
  have hplace : ((turns * s.size + index) % (s.size : Int)).toNat = index := by
    rw [Int.add_comm, Int.add_mul_emod_self_right, Int.emod_eq_of_lt (by omega) hindex]
    exact Int.toNat_natCast index
  rw [degreePitch, hturns, hplace, Int.sub_self, Int.zero_add]

/-- The distance from the root is so many turns, the climb to a degree, and what is left: less than
the next step. -/
theorem locate_spec (s : Scale) (p : Pitch) :
    ∃ (turns : Int) (index rest : Nat), s.locate p = (turns * s.size + index, (rest : Int)) ∧
      index < s.size ∧ s.offset index + rest < s.offset (index + 1) ∧
      s.span * turns + s.offset index + rest = Width.int64.clamp (p - s.root) := by
  have hspan : (0 : Int) < s.span := by exact_mod_cast s.span_pos
  generalize hd : Width.int64.clamp (p - s.root) = distance
  have hmod0 := Int.emod_nonneg distance (b := s.span) (by omega)
  have hmod := Int.emod_lt_of_pos distance hspan
  have hlt : (distance % s.span).toNat < s.span := by omega
  have hrise := rise_climb s.steps (distance % s.span).toNat
  have hdivmod := Int.mul_ediv_add_emod distance s.span
  refine ⟨distance / s.span, (climb s.steps (distance % s.span).toNat).1,
    (climb s.steps (distance % s.span).toNat).2, ?_, climb_lt_length hlt, ?_, ?_⟩
  · rw [locate, hd]
  · rw [offset, offset, hrise]
    exact lt_rise_climb hlt
  · rw [offset]
    omega

/-- The degree found for a pitch, with what is left above it, is the pitch itself, unless its
distance to the root had to be cut. -/
theorem degreePitch_locate (s : Scale) (p : Pitch) :
    s.degreePitch (s.locate p).1 s.rootOctave + (s.locate p).2 =
      s.root + Width.int64.clamp (p - s.root) := by
  obtain ⟨turns, index, rest, hlocate, hindex, -, hdistance⟩ := s.locate_spec p
  rw [hlocate, s.degreePitch_root_octave turns hindex, ← hdistance]
  simp only [Int.add_assoc]

end Stave.Scale
