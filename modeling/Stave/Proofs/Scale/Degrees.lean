import Mathlib.Algebra.Order.BigOperators.Group.List
import Mathlib.Algebra.Order.Group.Int
import Mathlib.Algebra.Order.Ring.Abs
import Mathlib.Algebra.Order.Ring.Int
import Mathlib.Data.List.Induction
import Stave.Proofs.Scale
import Stave.Proofs.Width

/-!
# The ladder of degrees

The degrees of a scale are the rungs of a ladder without end: each is above the one before it, also
where one span of the scale ends and the next begins, and so many degrees as the scale has steps
climb exactly one span.  The exact pitch of a degree is found in 128 bits, which no degree, octave
or root that can be held makes too few; only the result is cut, or refused, at the ends of 64.

    sums steps = (the sums of the first steps, the sum of all)            (sums_eq)
    d < d' → s.degreePitch d octave < s.degreePitch d' octave             (degreePitch_lt)
    s.degreePitch (d + m * s.size) octave = s.degreePitch d (octave + m)  (degreePitch_add_mul)
    s.degreePitch d (octave + m) = s.degreePitch d octave + m * s.span    (degreePitch_octave)
    s.wide? d octave = some (s.degreePitch d octave)                      (wide?_eq)
    all of these, with resolve and resolve? at the ends of 64 bits        (degrees_climb)
-/

namespace Stave.Scale

variable {s : Scale} {octave : Int}

/-! ## Sums of steps -/

/-- The offsets of the degrees below the repetition, and the span: each sum from the one before. -/
def sums (steps : List Nat) : List Nat × Nat :=
  steps.foldl (fun (offsets, height) step => (offsets ++ [height], height + step)) ([], 0)

theorem rise_eq_sum (steps : List Nat) : rise steps = steps.sum := by
  induction steps with
  | nil => rfl
  | cons step steps ih => rw [rise, List.sum_cons, ih]

theorem span_eq_sum (s : Scale) : s.span = s.steps.sum := rise_eq_sum _

theorem offset_eq_sum (s : Scale) (index : Nat) : s.offset index = (s.steps.take index).sum :=
  rise_eq_sum _

theorem sums_append (steps : List Nat) (step : Nat) :
    sums (steps ++ [step]) = ((sums steps).1 ++ [(sums steps).2], (sums steps).2 + step) := by
  rw [sums, List.foldl_append]
  rfl

theorem sums_eq (steps : List Nat) :
    sums steps = ((List.range steps.length).map fun index => (steps.take index).sum, steps.sum) := by
  induction steps using List.reverseRecOn with
  | nil => rfl
  | append_singleton steps step ih =>
    have hbelow : ∀ index ∈ List.range steps.length,
        (steps.take index).sum = ((steps ++ [step]).take index).sum := by
      intro index hindex
      rw [List.take_append_of_le_length (Nat.le_of_lt (List.mem_range.1 hindex))]
    rw [sums_append, ih, List.length_append, List.length_singleton, List.range_succ,
      List.map_append, List.map_congr_left hbelow,
      List.sum_append, List.sum_singleton]
    simp

/-- Every step of a scale climbs. -/
theorem offset_lt_offset (s : Scale) {i j : Nat} (hij : i < j) (hj : j ≤ s.size) :
    s.offset i < s.offset j := by
  have hi : i < s.steps.length := Nat.lt_of_lt_of_le hij hj
  have hstep : 0 < s.steps[i] := s.steps_pos _ (List.getElem_mem hi)
  have hnext : s.offset (i + 1) = s.offset i + s.steps[i] := by
    rw [offset_eq_sum, offset_eq_sum, List.sum_take_succ _ _ hi]
  have hrest : s.offset (i + 1) ≤ s.offset j := by
    rw [offset_eq_sum, offset_eq_sum, ← Nat.add_sub_cancel' (Nat.succ_le_of_lt hij),
      List.take_add (i := i + 1), List.sum_append]
    exact Nat.le_add_right _ _
  omega

theorem offset_le_offset (s : Scale) {i j : Nat} (hij : i ≤ j) (hj : j ≤ s.size) :
    s.offset i ≤ s.offset j := by
  rcases Nat.lt_or_eq_of_le hij with hlt | rfl
  · exact Nat.le_of_lt (s.offset_lt_offset hlt hj)
  · exact Nat.le_refl _

theorem offset_size (s : Scale) : s.offset s.size = s.span := by
  rw [offset, size, List.take_length, span]

theorem offset_lt_span (s : Scale) {index : Nat} (h : index < s.size) : s.offset index < s.span :=
  s.offset_size ▸ s.offset_lt_offset h (Nat.le_refl _)

theorem getElem?_sums (s : Scale) {index : Nat} (h : index < s.size) :
    (sums s.steps).1[index]? = some (s.offset index) := by
  have hrange : (List.range s.steps.length)[index]? = some index := List.getElem?_range h
  rw [sums_eq, List.getElem?_map, hrange, offset_eq_sum]
  rfl

/-! ## Climbing -/

/-- A degree is a number of turns through the scale and a place on it. -/
theorem place_lt (s : Scale) (degree : Int) :
    (degree % s.size).toNat < s.size ∧ s.size * (degree / s.size) + (degree % s.size).toNat = degree := by
  have hsize : (0 : Int) < s.size := by exact_mod_cast s.size_pos
  have hlow := Int.emod_nonneg degree (Int.ne_of_gt hsize)
  have hhigh := Int.emod_lt_of_pos degree hsize
  have hdivmod := Int.mul_ediv_add_emod degree s.size
  omega

/-- Between two degrees lies at least one step, be it inside a span or across its end. -/
theorem degreePitch_lt (octave : Int) {d d' : Int} (h : d < d') :
    s.degreePitch d octave < s.degreePitch d' octave := by
  obtain ⟨hplace, hd⟩ := s.place_lt d
  obtain ⟨hplace', hd'⟩ := s.place_lt d'
  have hturns : d / s.size ≤ d' / s.size := Int.ediv_le_ediv (by omega) (Int.le_of_lt h)
  show (_ : Int) < _
  unfold degreePitch
  rcases Int.lt_or_eq_of_le hturns with hmore | hsame
  · -- a turn more outweighs whatever the places add
    have hoffset := s.offset_lt_span hplace
    have hfoot : (0 : Int) ≤ s.offset (d' % s.size).toNat := Int.natCast_nonneg _
    have hspan : (s.span : Int) * (octave - s.rootOctave + d / s.size + 1) ≤
        s.span * (octave - s.rootOctave + d' / s.size) :=
      Int.mul_le_mul_of_nonneg_left (by omega) (by omega)
    rw [Int.mul_add, Int.mul_one] at hspan
    omega
  · have hindex : (d % s.size).toNat < (d' % s.size).toNat := by
      rw [hsame] at hd
      omega
    have hoffset := s.offset_lt_offset hindex (Nat.le_of_lt hplace')
    rw [hsame]
    omega

/-- So many degrees as the scale has steps are one octave of it. -/
theorem degreePitch_add_mul (d m octave : Int) :
    s.degreePitch (d + m * s.size) octave = s.degreePitch d (octave + m) := by
  have hsize : (s.size : Int) ≠ 0 := by exact_mod_cast s.size_pos.ne'
  have hturns : octave - s.rootOctave + (d / s.size + m) = octave + m - s.rootOctave + d / s.size := by
    omega
  rw [degreePitch, degreePitch, Int.add_mul_ediv_right _ _ hsize, Int.add_mul_emod_self_right, hturns]

theorem degreePitch_octave (d m octave : Int) :
    s.degreePitch d (octave + m) = s.degreePitch d octave + m * s.span := by
  have hturns : octave + m - s.rootOctave + d / s.size = octave - s.rootOctave + d / s.size + m := by
    omega
  have hspan : (s.span : Int) * m = m * s.span := Int.mul_comm _ _
  rw [degreePitch, degreePitch, hturns, Int.mul_add, hspan]
  show (_ : Int) = _
  omega

/-! ## In 128 bits -/

/-- The pitch of a degree from the sums of the steps, if 128 bits hold every number on the way. -/
def wide? (s : Scale) (degree octave : Int) : Option Int := do
  let offset ← (sums s.steps).1[(degree % s.size).toNat]?
  let up ← Width.int128.narrow? (octave - s.rootOctave)
  let turns ← Width.int128.narrow? (up + degree / s.size)
  let turned ← Width.int128.narrow? ((sums s.steps).2 * turns)
  let reached ← Width.int128.narrow? (s.root + turned)
  Width.int128.narrow? (reached + offset)

/-- A scale with as many steps as a machine can hold has a span of 64 bits. -/
theorem holds_span (hsteps : ∀ step ∈ s.steps, Width.nat32.Holds step)
    (hsize : s.size ≤ 2147483648) : Width.int64.Holds s.span := by
  have hsum : s.steps.sum ≤ s.steps.length * 4294967295 := by
    refine List.sum_le_card_nsmul s.steps 4294967295 fun step hstep => ?_
    have := (hsteps step hstep).2
    simp only [Width.nat32] at this
    omega
  rw [size] at hsize
  rw [span_eq_sum]
  simp only [Width.Holds, Width.int64]
  omega

theorem abs_ediv_le (d n : Int) : |d / n| ≤ |d| := by
  rw [Int.abs_eq_natAbs, Int.abs_eq_natAbs]
  exact_mod_cast Int.natAbs_ediv_le_natAbs d n

/-- 128 bits are enough for every scale, degree and octave that can be held. -/
theorem wide?_eq (hroot : Width.int64.Holds s.root) (hspan : Width.int64.Holds s.span)
    {degree : Int} (hdegree : Width.int64.Holds degree) (hoctave : Width.int32.Holds octave) :
    s.wide? degree octave = some (s.degreePitch degree octave) := by
  obtain ⟨hplace, -⟩ := s.place_lt degree
  have hbelow := s.offset_lt_span hplace
  have hrootOctave : Width.int32.Holds s.rootOctave := Width.holds_wrap (by decide) _
  have hsize : (0 : Int) < s.size := by exact_mod_cast s.size_pos
  have hoffset := s.getElem?_sums hplace
  have htop : (sums s.steps).2 = s.span := by rw [sums_eq, span_eq_sum]
  simp only [Width.Holds, Width.int64, Width.int32] at hroot hspan hdegree hoctave hrootOctave
  have hdiv : |degree / s.size| ≤ 9223372036854775808 :=
    (abs_ediv_le _ _).trans (abs_le.2 ⟨by omega, by omega⟩)
  obtain ⟨hlow, hhigh⟩ := abs_le.1 hdiv
  -- half the room of the product is left for the root and the offset
  have hturned : |(s.span : Int) * (octave - s.rootOctave + degree / s.size)| ≤
      9223372036854775808 * 9223372041149743103 := by
    rw [abs_mul]
    refine mul_le_mul ?_ ?_ (abs_nonneg _) (by decide)
    · exact abs_le.2 ⟨by omega, by omega⟩
    · exact abs_le.2 ⟨by omega, by omega⟩
  obtain ⟨hleast, hmost⟩ := abs_le.1 hturned
  have hheld : ∀ {n : Int}, -170141183460469231731687303715884105728 ≤ n →
      n ≤ 170141183460469231731687303715884105727 → Width.int128.narrow? n = some n :=
    fun hn hn' => Width.narrow?_of_holds ⟨hn, hn'⟩
  rw [wide?, hoffset, htop, degreePitch]
  simp only [Option.bind_eq_bind, Option.bind_some]
  rw [hheld (by omega) (by omega), Option.bind_some, hheld (by omega) (by omega), Option.bind_some,
    hheld (by omega) (by omega), Option.bind_some, hheld (by omega) (by omega), Option.bind_some,
    hheld (by omega) (by omega)]

/-! ## The ladder -/

/-- The pitch of a degree by the steps alone: a turn through them adds their sum. -/
def rung (s : Scale) (octave degree : Int) : Int :=
  s.root + s.steps.sum * (octave - s.rootOctave + degree / s.steps.length) +
    (s.steps.take (degree % s.steps.length).toNat).sum

theorem degreePitch_eq_rung (s : Scale) (octave degree : Int) :
    s.degreePitch degree octave = s.rung octave degree := by
  rw [degreePitch, rung, span_eq_sum, offset_eq_sum]
  rfl

/-- The pitches of the degrees rise without a gap in the rule, and turn for turn by one span.  The
checked reading of a degree gives the exact pitch where 64 bits hold it and nothing elsewhere, the
total one the exact pitch or the end of the range that it lies beyond.  On the way there no number
leaves 128 bits, as long as the root and the span are held in 64.  To go so many turns up the
degrees is to go as many octaves up. -/
theorem degrees_climb (s : Scale) (octave : Int) :
    (∀ degree degree', degree < degree' → s.rung octave degree < s.rung octave degree') ∧
    (∀ degree p, s.resolve? degree octave = some p ↔
      p = s.rung octave degree ∧ Width.int64.Holds (s.rung octave degree)) ∧
    (∀ degree, s.resolve degree octave =
      if s.rung octave degree < Width.int64.least then Width.int64.least
      else if Width.int64.most < s.rung octave degree then Width.int64.most
      else s.rung octave degree) ∧
    (Width.int64.Holds s.root → Width.int64.Holds s.span → Width.int32.Holds octave →
      ∀ degree, Width.int64.Holds degree → s.wide? degree octave = some (s.rung octave degree)) ∧
    ∀ degree turns : Int,
      s.resolve (degree + turns * s.size) octave = s.resolve degree (octave + turns) ∧
      s.resolve? (degree + turns * s.size) octave = s.resolve? degree (octave + turns) ∧
      s.rung octave (degree + turns * s.size) = s.rung octave degree + turns * s.span := by
  refine ⟨?_, ?_, ?_, ?_, ?_⟩
  · intro d d' h
    rw [← degreePitch_eq_rung, ← degreePitch_eq_rung]
    exact degreePitch_lt octave h
  · intro degree p
    rw [← degreePitch_eq_rung]
    exact Width.narrow?_eq_some_iff
  · intro degree
    rw [resolve, degreePitch_eq_rung, Width.clamp]
    show (_ : Int) = _
    simp only [Width.int64]
    omega
  · intro hroot hspan hoctave degree hdegree
    rw [← degreePitch_eq_rung]
    exact wide?_eq hroot hspan hdegree hoctave
  · intro degree turns
    have hturned := degreePitch_add_mul (s := s) degree turns octave
    refine ⟨?_, ?_, ?_⟩
    · rw [resolve, resolve, hturned]
    · rw [resolve?, resolve?, hturned]
    · rw [← degreePitch_eq_rung, ← degreePitch_eq_rung, hturned, degreePitch_octave]

/-- A step of 32 bits and one of a semitone, on the highest root of all. -/
def steep : Scale := ⟨9223372036854775807, [4294967295, 1], "steep", by decide, by decide⟩

/-- At the far end of degrees and octaves the exact pitch has 95 bits. -/
theorem degrees_climb_steep :
    steep.wide? 9223372036854775807 2147483647 = some 19807040653161743166195367934 ∧
    steep.resolve? 9223372036854775807 2147483647 = none ∧
    steep.resolve 9223372036854775807 2147483647 = 9223372036854775807 ∧
    steep.resolve? (1 + -2 * 2) 2147483647 = steep.resolve? 1 (2147483647 + -2) := by
  obtain ⟨-, hchecked, htotal, hwide, hturns⟩ := degrees_climb steep 2147483647
  have hrung : steep.rung 2147483647 9223372036854775807 = 19807040653161743166195367934 := by
    decide +kernel
  refine ⟨?_, ?_, ?_, (hturns 1 (-2)).2.1⟩
  · have hspan : Width.int64.Holds steep.span := holds_span (by decide) (by decide)
    rw [hwide (by decide) hspan (by decide) _ (by decide), hrung]
  · rw [Option.eq_none_iff_forall_ne_some]
    intro p hp
    have hheld := ((hchecked _ p).1 hp).2
    rw [hrung] at hheld
    exact absurd hheld (by decide)
  · rw [htotal, hrung]
    decide

end Stave.Scale
