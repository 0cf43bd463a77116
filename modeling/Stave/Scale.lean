import Stave.Pitch

/-!
# Scales

A scale climbs from its root by steps of at least one semitone and repeats after the last.  A
degree is a place on it: 0 is the root, negative degrees lie below.  `degreePitch` is the exact
rule for the pitch of a degree; `resolve` clamps it and `resolve?` refuses it where 64 bits do
not hold it.  `locate` finds the degree at or below a pitch, and what is left above it.
-/

namespace Stave

/-- Why no scale could be built. -/
inductive ScaleError where
  | noSteps
  | zeroStep (index : Nat)
  | unknownMode (mode : String)
  | invalidRoot (text : String)
deriving DecidableEq

def ScaleError.message : ScaleError → String
  | .noSteps => "Scale needs at least one interval"
  | .zeroStep index => "Scale interval " ++ toString index ++ " is zero, steps must be positive"
  | .unknownMode mode => "Unknown scale mode: " ++ mode
  | .invalidRoot text => "Invalid scale root: " ++ text

/-- A root, the steps above it in semitones, and a label. -/
structure Scale where
  root : Pitch
  steps : List Nat
  mode : String
  steps_ne_nil : steps ≠ []
  steps_pos : ∀ s ∈ steps, 0 < s

namespace Scale

/-! ## Construction -/

theorem pos_of_findIdx?_eq_none {steps : List Nat} (h : steps.findIdx? (· == 0) = none) :
    ∀ s ∈ steps, 0 < s := by
  intro s hs
  have := List.findIdx?_eq_none_iff.1 h s hs
  simp at this
  omega

def build (root : Pitch) (steps : List Nat) (mode : String) : Except ScaleError Scale :=
  if hne : steps = [] then .error .noSteps
  else match hz : steps.findIdx? (· == 0) with
    | some index => .error (.zeroStep index)
    | none => .ok ⟨root, steps, mode, hne, pos_of_findIdx?_eq_none hz⟩

/-- Semitones above the root of each degree of a named mode. -/
def modeOffsets? (mode : String) : Option (List Nat) :=
  if mode = "major" ∨ mode = "ionian" then some [0, 2, 4, 5, 7, 9, 11]
  else if mode = "minor" ∨ mode = "aeolian" then some [0, 2, 3, 5, 7, 8, 10]
  else if mode = "dorian" then some [0, 2, 3, 5, 7, 9, 10]
  else if mode = "phrygian" then some [0, 1, 3, 5, 7, 8, 10]
  else if mode = "lydian" then some [0, 2, 4, 6, 7, 9, 11]
  else if mode = "mixolydian" then some [0, 2, 4, 5, 7, 9, 10]
  else if mode = "locrian" then some [0, 1, 3, 5, 6, 8, 10]
  else if mode = "pentatonic" ∨ mode = "pentatonic_major" then some [0, 2, 4, 7, 9]
  else if mode = "pentatonic_minor" then some [0, 3, 5, 7, 10]
  else if mode = "blues" then some [0, 3, 5, 6, 7, 10]
  else if mode = "chromatic" then some [0, 1, 2, 3, 4, 5, 6, 7, 8, 9, 10, 11]
  else if mode = "wholetone" then some [0, 2, 4, 6, 8, 10]
  else if mode = "harmonic_minor" then some [0, 2, 3, 5, 7, 8, 11]
  else if mode = "melodic_minor" then some [0, 2, 3, 5, 7, 9, 11]
  else none

/-- The steps between ascending offsets, the last one up to the octave. -/
def stepsBetween : List Nat → List Nat
  | [] => []
  | [last] => [12 - last]
  | a :: b :: rest => (b - a) :: stepsBetween (b :: rest)

/-- The scale of a mode; letter case does not matter, as all the names are ASCII. -/
def named (root : Pitch) (mode : String) : Except ScaleError Scale :=
  let label := mode.map Char.toLower
  match modeOffsets? label with
  | some offsets => build root (stepsBetween offsets) label
  | none => .error (.unknownMode mode)

/-! ## Degrees -/

/-- Number of degrees before the scale repeats. -/
def size (s : Scale) : Nat := s.steps.length

/-- Semitones that some steps climb together. -/
def rise : List Nat → Nat
  | [] => 0
  | step :: steps => step + rise steps

/-- Semitones from the root to its repetition. -/
def span (s : Scale) : Nat := rise s.steps

def rootOctave (s : Scale) : Int := s.root.octave

/-- Semitones from the root to a degree below the repetition. -/
def offset (s : Scale) (index : Nat) : Nat := rise (s.steps.take index)

/-- The pitch of a degree in an octave: each turn through the degrees, like each octave above the
root's own, adds one span. -/
def degreePitch (s : Scale) (degree octave : Int) : Pitch :=
  s.root + s.span * (octave - s.rootOctave + degree / s.size) + s.offset (degree % s.size).toNat

def resolve (s : Scale) (degree octave : Int) : Pitch :=
  Width.int64.clamp (s.degreePitch degree octave)

def resolve? (s : Scale) (degree octave : Int) : Option Pitch :=
  Width.int64.narrow? (s.degreePitch degree octave)

/-- How many of the steps fit under a height, and what is left above them. -/
def climb : List Nat → Nat → Nat × Nat
  | [], height => (0, height)
  | step :: steps, height =>
    if height < step then (0, height)
    else
      let (index, rest) := climb steps (height - step)
      (index + 1, rest)

/-- The degree at or below a pitch, counted from the root, and the semitones left above it.  The
distance to the root is held in 64 bits: beyond their ends it stays at the end. -/
def locate (s : Scale) (p : Pitch) : Int × Int :=
  let distance := Width.int64.clamp (p - s.root)
  let (index, rest) := climb s.steps (distance % s.span).toNat
  (distance / s.span * s.size + index, rest)

/-! ## Lemmas -/

theorem size_pos (s : Scale) : 0 < s.size := List.length_pos_iff.2 s.steps_ne_nil

theorem span_pos (s : Scale) : 0 < s.span := by
  obtain ⟨root, steps, mode, hne, hpos⟩ := s
  cases steps with
  | nil => exact absurd rfl hne
  | cons step steps =>
    have := hpos step (by simp)
    simp only [span, rise]
    omega

end Scale

end Stave
