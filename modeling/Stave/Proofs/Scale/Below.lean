import Stave.Proofs.Scale.Degrees

/-!
# The degree below a pitch

Every pitch stands on exactly one degree of a scale: the last one that is not above it.  What is
left between them is less than the step that leads to the next degree, so to locate a pitch and to
resolve a degree at the octave of the root undo each other, as long as 64 bits hold the distance to
the root and the whole turns in it.  Of a degree below the least pitch of all it is only the
resolved pitch that is cut; the place that is located is exact.

    index ≤ s.size → index ≤ s.offset index                                        (le_offset)
    the pitch of the next degree is one step above that of the degree              (rung_succ)
    the last sum of steps not above a height is that of the degree there           (lastIndex?_sums)
    s.InReach p → s.search? p = some (s.locate p)                                  (search?_eq)
    s.locate p = (d, r) with d the only degree below p, and r what is left over it (locate_exact)
-/

namespace Stave.Scale

variable {s : Scale}

/-! ## Steps between degrees -/

theorem le_offset (s : Scale) {index : Nat} (h : index ≤ s.size) : index ≤ s.offset index := by
  induction index with
  | zero => exact Nat.zero_le _
  | succ index ih =>
    have hbelow := ih (Nat.le_of_succ_le h)
    exact Nat.succ_le_of_lt (Nat.lt_of_le_of_lt hbelow (s.offset_lt_offset (Nat.lt_succ_self index) h))

theorem size_le_span (s : Scale) : s.size ≤ s.span := s.offset_size ▸ s.le_offset (Nat.le_refl _)

/-- A place on the scale may also be its end, which is the root one turn higher. -/
theorem rung_place (s : Scale) (turns : Int) (index : Nat) (h : index ≤ s.size) :
    s.rung s.rootOctave (turns * s.size + index) = s.root + s.span * turns + s.offset index := by
  rw [← degreePitch_eq_rung]
  rcases Nat.lt_or_eq_of_le h with hlt | rfl
  · exact s.degreePitch_root_octave turns hlt
  · have hturn : turns * s.size + s.size = (turns + 1) * s.size + (0 : Nat) := by
      rw [Int.add_mul, Int.one_mul]
      exact (Int.add_zero _).symm
    rw [hturn, s.degreePitch_root_octave (turns + 1) s.size_pos, offset_size, Int.mul_add, offset,
      List.take_zero, rise]
    show (_ : Int) = _
    omega

/-- The semitones from a degree to the next. -/
def step (s : Scale) (degree : Int) : Nat := s.steps.get ⟨(degree % s.size).toNat, (s.place_lt degree).1⟩

theorem offset_succ (s : Scale) {index : Nat} (h : index < s.size) :
    s.offset (index + 1) = s.offset index + s.steps.get ⟨index, h⟩ := by
  rw [offset_eq_sum, offset_eq_sum, List.sum_take_succ _ _ h]
  rfl

theorem rung_succ (s : Scale) (degree : Int) :
    s.rung s.rootOctave (degree + 1) = s.rung s.rootOctave degree + s.step degree := by
  obtain ⟨hplace, hdegree⟩ := s.place_lt degree
  have hnext := s.rung_place (degree / s.size) ((degree % s.size).toNat + 1) hplace
  have hhere := s.rung_place (degree / s.size) _ (Nat.le_of_lt hplace)
  rw [Int.mul_comm] at hdegree
  rw [Int.natCast_succ, ← Int.add_assoc, hdegree, s.offset_succ hplace] at hnext
  rw [hdegree] at hhere
  rw [hnext, hhere, step]
  omega

theorem rung_lt (octave : Int) {d d' : Int} (h : d < d') : s.rung octave d < s.rung octave d' := by
  rw [← degreePitch_eq_rung, ← degreePitch_eq_rung]
  exact degreePitch_lt octave h

theorem rung_le (octave : Int) {d d' : Int} (h : d ≤ d') : s.rung octave d ≤ s.rung octave d' := by
  rcases Int.lt_or_eq_of_le h with hlt | rfl
  · exact Int.le_of_lt (rung_lt octave hlt)
  · exact Int.le_refl _

/-- Of all degrees one is the last that is not above a pitch. -/
theorem below_iff {octave degree : Int} {p : Int} (hbelow : s.rung octave degree ≤ p)
    (habove : p < s.rung octave (degree + 1)) (d : Int) :
    s.rung octave d ≤ p ∧ p < s.rung octave (d + 1) ↔ d = degree := by
  constructor
  · rintro ⟨hd, hd'⟩
    rcases Int.lt_trichotomy d degree with hlt | heq | hgt
    · have hle : s.rung octave (d + 1) ≤ s.rung octave degree := rung_le octave hlt
      omega
    · exact heq
    · have hle : s.rung octave (degree + 1) ≤ s.rung octave d := rung_le octave hgt
      omega
  · rintro rfl
    exact ⟨hbelow, habove⟩

/-! ## Resolved degrees -/

section

variable {octave degree : Int}

theorem resolve_of_holds (h : Width.int64.Holds (s.rung octave degree)) :
    s.resolve? degree octave = some (s.rung octave degree) ∧
      s.resolve degree octave = s.rung octave degree := by
  rw [resolve?, resolve, degreePitch_eq_rung]
  exact ⟨Width.narrow?_of_holds h, Width.clamp_of_holds h⟩

theorem resolve_of_lt (h : s.rung octave degree < Width.int64.least) :
    s.resolve? degree octave = none ∧ s.resolve degree octave = Width.int64.least := by
  rw [resolve?, resolve, degreePitch_eq_rung]
  refine ⟨if_neg fun hheld => absurd hheld.1 (Int.not_le.2 h), ?_⟩
  rw [Width.clamp]
  show (_ : Int) = _
  omega

end

/-! ## Search from the end -/

/-- The last place of a list at which a test passes. -/
def lastIndex? {α : Type} (test : α → Bool) (as : List α) : Option Nat :=
  (as.reverse.findIdx? test).map fun index => as.length - 1 - index

theorem lastIndex?_eq_some {α : Type} {test : α → Bool} {as : List α} {index : Nat}
    (h : index < as.length) (hhere : test as[index] = true)
    (hafter : ∀ j (hj : j < as.length), index < j → test as[j] = false) :
    lastIndex? test as = some index := by
  have hfound : as.reverse.findIdx? test = some (as.length - 1 - index) := by
    rw [List.findIdx?_eq_some_iff_getElem]
    refine ⟨by rw [List.length_reverse]; omega, ?_, fun j hj => ?_⟩
    · rw [List.getElem_reverse]
      have hback : as.length - 1 - (as.length - 1 - index) = index := by omega
      simpa only [hback] using hhere
    · rw [List.getElem_reverse, hafter _ (by omega) (by omega)]
      exact Bool.false_ne_true
  rw [lastIndex?, hfound, Option.map_some]
  congr 1
  omega

/-- The search goes through the sums of the steps from the greatest down. -/
theorem lastIndex?_sums (s : Scale) {index : Nat} (height : Int) (h : index < s.size)
    (hhere : s.offset index ≤ height) (hnext : height < s.offset (index + 1)) :
    lastIndex? (fun offset : Nat => decide (offset ≤ height)) (sums s.steps).1 = some index := by
  rw [sums_eq]
  have hlength : ((List.range s.steps.length).map fun i => (s.steps.take i).sum).length = s.size := by
    rw [List.length_map, List.length_range, size]
  refine lastIndex?_eq_some (by rw [hlength]; exact h) ?_ fun j hj hlt => ?_
  · rw [List.getElem_map, List.getElem_range, ← offset_eq_sum]
    exact decide_eq_true hhere
  · rw [List.getElem_map, List.getElem_range, ← offset_eq_sum]
    rw [hlength] at hj
    have hmono : s.offset (index + 1) ≤ s.offset j := s.offset_le_offset hlt (Nat.le_of_lt hj)
    exact decide_eq_false (by omega)

/-! ## In 64 bits -/

/-- A pitch whose distance to the root 64 bits hold, and whose whole turns, counted in degrees. -/
structure InReach (s : Scale) (p : Pitch) : Prop where
  pitch : Width.int64.Holds p
  distance : Width.int64.Holds (p - s.root)
  turns : Width.int64.Holds ((p - s.root) / s.span * s.size)

/-- The place of a pitch by a search through the sums of the steps, if 64 bits hold every number on
the way but the distance, which stays at their ends. -/
def search? (s : Scale) (p : Pitch) : Option (Int × Int) := do
  let distance := Width.int64.clamp (p - s.root)
  let turns ← Width.int64.narrow? (distance / s.span)
  let height ← Width.int64.narrow? (distance % s.span)
  let index := (lastIndex? (fun offset : Nat => decide (offset ≤ height)) (sums s.steps).1).getD 0
  let turned ← Width.int64.narrow? (turns * s.size)
  let degree ← Width.int64.narrow? (turned + index)
  let offset ← (sums s.steps).1[index]?
  let rest ← Width.int64.narrow? (height - offset)
  return (degree, rest)

/-- There are no more degrees than semitones on the way. -/
theorem holds_degree {turns distance : Int} {index rest : Nat} (hindex : index < s.size)
    (hdistance : s.span * turns + s.offset index + rest = distance) (h : Width.int64.Holds distance)
    (hturns : Width.int64.Holds (turns * s.size)) : Width.int64.Holds (turns * s.size + index) := by
  have hindex' : (index : Int) < s.size := by exact_mod_cast hindex
  have hoffset := s.le_offset (Nat.le_of_lt hindex)
  have hspan : (s.size : Int) ≤ s.span := by exact_mod_cast s.size_le_span
  simp only [Width.Holds, Width.int64] at h hturns ⊢
  rcases Int.lt_or_le turns 0 with hneg | hpos
  · have hbelow : turns * s.size ≤ -1 * s.size := Int.mul_le_mul_of_nonneg_right (by omega) (by omega)
    omega
  · have hmore : turns * s.size ≤ turns * s.span := Int.mul_le_mul_of_nonneg_left hspan hpos
    rw [Int.mul_comm turns s.span] at hmore
    omega

/-- The search finds what the climb does, and no number on the way is too great. -/
theorem search?_eq {p : Pitch} (h : s.InReach p) (hspan : Width.int64.Holds s.span) :
    s.search? p = some (s.locate p) := by
  obtain ⟨turns, index, rest, hlocate, hindex, hrest, hdistance⟩ := s.locate_spec p
  have hreach := h.distance
  have hturned := h.turns
  rw [search?, hlocate, Width.clamp_of_holds hreach]
  rw [Width.clamp_of_holds hreach] at hdistance
  generalize p - s.root = distance at *
  have htop : s.offset (index + 1) ≤ s.span :=
    s.offset_size ▸ s.offset_le_offset hindex (Nat.le_refl _)
  have hpos : (0 : Int) < s.span := by exact_mod_cast s.span_pos
  obtain ⟨hquotient, hheight⟩ : distance / s.span = turns ∧ distance % s.span = s.offset index + rest :=
    (Int.ediv_emod_unique hpos).2 ⟨by omega, by omega, by omega⟩
  rw [hquotient] at hturned
  have hturns := Width.holds_of_holds_mul (by exact_mod_cast s.size_pos) hturned
  have hdegree := holds_degree hindex hdistance hreach hturned
  have hlast := s.lastIndex?_sums (s.offset index + rest) hindex (by omega) (by omega)
  have hbelow : Width.int64.Holds (s.offset index + rest) := by
    simp only [Width.Holds, Width.int64] at hspan ⊢
    omega
  have hleft : (s.offset index + rest : Int) - s.offset index = rest := by omega
  have hrest' : Width.int64.Holds rest := by
    simp only [Width.Holds, Width.int64] at hbelow ⊢
    omega
  simp only [Option.bind_eq_bind]
  rw [hquotient, hheight, Width.narrow?_of_holds hturns, Option.bind_some,
    Width.narrow?_of_holds hbelow, Option.bind_some, hlast, Option.getD_some,
    Width.narrow?_of_holds hturned, Option.bind_some, Width.narrow?_of_holds hdegree, Option.bind_some,
    s.getElem?_sums hindex, Option.bind_some, hleft, Width.narrow?_of_holds hrest', Option.bind_some]
  rfl

/-! ## There and back -/

/-- A pitch is that of the degree it stands on and less than a step more. -/
theorem locate_below (s : Scale) {p : Pitch} (h : Width.int64.Holds (p - s.root)) :
    ∃ (degree : Int) (rest : Nat), s.locate p = (degree, (rest : Int)) ∧
      s.rung s.rootOctave degree + rest = p ∧ rest < s.step degree := by
  obtain ⟨turns, index, rest, hlocate, hindex, hrest, hdistance⟩ := s.locate_spec p
  have hhere := s.rung_place turns index (Nat.le_of_lt hindex)
  have hnext := s.rung_place turns (index + 1) hindex
  have hsucc := s.rung_succ (turns * s.size + index)
  rw [Int.natCast_succ, ← Int.add_assoc] at hnext
  rw [Width.clamp_of_holds h] at hdistance
  exact ⟨_, rest, hlocate, by omega, by omega⟩

/-- The place of a pitch within reach is found, by the climb and by the search from the end.  The
degree is the only one whose pitch is not above while that of the next is, and what is left is less
than the step between them.  The resolved degree with what is left gives the pitch back unless the
pitch of the degree is below the least of all: only then is it refused, and cut.  A degree whose
pitch is within reach is located where it is. -/
theorem locate_exact (s : Scale) :
    (∀ p, s.InReach p → ∃ degree rest, s.locate p = (degree, rest) ∧
      (Width.int64.Holds s.span → s.search? p = some (degree, rest)) ∧
      (∀ d, s.rung s.rootOctave d ≤ p ∧ p < s.rung s.rootOctave (d + 1) ↔ d = degree) ∧
      rest = p - s.rung s.rootOctave degree ∧ 0 ≤ rest ∧ rest < s.step degree ∧
      if s.rung s.rootOctave degree < Width.int64.least then
        s.resolve? degree s.rootOctave = none ∧ s.resolve degree s.rootOctave = Width.int64.least
      else
        s.resolve? degree s.rootOctave = some (p - rest) ∧ s.resolve degree s.rootOctave + rest = p) ∧
    ∀ degree, s.InReach (s.rung s.rootOctave degree) →
      s.locate (s.resolve degree s.rootOctave) = (degree, 0) := by
  refine ⟨fun p h => ?_, fun degree h => ?_⟩
  · obtain ⟨degree, rest, hlocate, hsum, hrest⟩ := s.locate_below h.distance
    have hsucc := s.rung_succ degree
    refine ⟨degree, rest, hlocate, fun hspan => hlocate ▸ search?_eq h hspan,
      below_iff (by omega) (by omega), by omega, by omega, by omega, ?_⟩
    by_cases hcut : s.rung s.rootOctave degree < Width.int64.least
    · rw [if_pos hcut]
      exact resolve_of_lt hcut
    · have hheld : Width.int64.Holds (s.rung s.rootOctave degree) :=
        ⟨Int.not_lt.1 hcut, by have := h.pitch.2; omega⟩
      obtain ⟨hchecked, htotal⟩ := resolve_of_holds hheld
      rw [if_neg hcut, hchecked, htotal]
      exact ⟨congrArg some (by omega), hsum⟩
  · obtain ⟨d, rest, hlocate, hsum, hrest⟩ := s.locate_below h.distance
    have hsucc := s.rung_succ d
    have hnext : s.rung s.rootOctave degree < s.rung s.rootOctave (degree + 1) :=
      rung_lt s.rootOctave (Int.lt_succ degree)
    have hbelow : s.rung s.rootOctave d ≤ s.rung s.rootOctave degree := by omega
    have habove : s.rung s.rootOctave degree < s.rung s.rootOctave (d + 1) := by omega
    have hd := (below_iff hbelow habove degree).1 ⟨Int.le_refl _, hnext⟩
    rw [(resolve_of_holds h.pitch).2, hlocate, ← hd]
    rw [← hd] at hsum
    exact Prod.ext rfl (by omega)

/-- A pitch thousands of millions of degrees below its root, and the degree next to that root. -/
theorem locate_exact_steep : steep.InReach 0 ∧ steep.InReach 9223372036854775806 ∧
    steep.search? 0 = some (-4294967296, 1) ∧ (1 : Int) < steep.step (-4294967296) ∧
    steep.resolve (-4294967296) steep.rootOctave + 1 = 0 ∧
    steep.locate (steep.resolve (-1) steep.rootOctave) = (-1, 0) := by
  have hreach : steep.InReach 0 := ⟨by decide, by decide, by decide +kernel⟩
  have hreach' : steep.InReach 9223372036854775806 := ⟨by decide, by decide, by decide +kernel⟩
  have hrung : steep.rung steep.rootOctave (-1) = 9223372036854775806 := by decide +kernel
  obtain ⟨hplace, hdegree⟩ := locate_exact steep
  obtain ⟨degree, rest, hlocate, hsearch, -, -, -, hstep, hresolve⟩ := hplace 0 hreach
  have hplaced : steep.locate 0 = (-4294967296, 1) := by decide +kernel
  cases hplaced.symm.trans hlocate
  have hlow : ¬ steep.rung steep.rootOctave (-4294967296) < Width.int64.least := by decide +kernel
  rw [if_neg hlow] at hresolve
  exact ⟨hreach, hreach', hsearch (holds_span (by decide) (by decide)), hstep, hresolve.2,
    hdegree (-1) (hrung ▸ hreach')⟩

/-- A root five semitones above the least pitch, and one step of seven. -/
def deep : Scale := ⟨-9223372036854775803, [7], "deep", by decide, by decide⟩

/-- The pitch next to the least stands on a degree below the least, which is cut when resolved. -/
theorem locate_deep_cut : deep.InReach (-9223372036854775807) ∧
    deep.locate (-9223372036854775807) = (-1, 3) ∧
    deep.resolve (-1) deep.rootOctave + 3 ≠ -9223372036854775807 :=
  ⟨⟨by decide, by decide, by decide⟩, by decide, by decide⟩

end Stave.Scale
