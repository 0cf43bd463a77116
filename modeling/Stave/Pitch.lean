import Stave.Numeral

/-!
# Pitches and note names

A pitch counts semitones, twelve to the octave, with middle C, `C4`, at 60.  A note name is a
letter with sharps and flats and perhaps an octave: `F#3`, `Bb`.
-/

namespace Stave

/-- Semitones above the C five octaves below middle C. -/
abbrev Pitch := Int

/-- Octave numbers are held in 32 bits and wrap around, so far-off pitches share them. -/
def Pitch.octave (p : Pitch) : Int := Width.int32.wrap (p / 12 - 1)

/-- The twelve pitch classes, spelt with sharps. -/
def sharpNames : List String := ["C", "C#", "D", "D#", "E", "F", "F#", "G", "G#", "A", "A#", "B"]

/-- The name of a pitch, spelt with a sharp where it needs one. -/
def Pitch.name (p : Pitch) : String :=
  sharpNames.getD (p % 12).toNat "" ++ toString p.octave

/-- Semitones from C up to a natural letter. -/
def letterClass? : Char → Option Int
  | 'C' => some 0
  | 'D' => some 2
  | 'E' => some 4
  | 'F' => some 5
  | 'G' => some 7
  | 'A' => some 9
  | 'B' => some 11
  | _ => none

/-- A letter, its net accidental in semitones, and an octave if one is written. -/
structure NoteName where
  letter : Char
  accidental : Int
  octave : Option Int
deriving DecidableEq

namespace NoteName

def isAccidental (c : Char) : Bool := c = '#' || c = 'b'

/-- Sharps less flats, held in 32 bits. -/
def accidentalOf (marks : List Char) : Int :=
  Width.int32.wrap ((marks.count '#' : Int) - marks.count 'b')

/-- The octave after the accidentals: none at all, or a numeral held in 32 bits. -/
def octaveOf? : List Char → Option (Option Int)
  | [] => some none
  | cs => (Numeral.integer? .int32 cs).map some

def read? : List Char → Option NoteName
  | [] => none
  | letter :: cs => do
    let _ ← letterClass? letter
    let octave ← octaveOf? (cs.dropWhile isAccidental)
    return ⟨letter, accidentalOf (cs.takeWhile isAccidental), octave⟩

/-- A letter that names no pitch class counts as C. -/
def natural (n : NoteName) : Int := (letterClass? n.letter).getD 0

def pitchClass (n : NoteName) : Int := (n.natural + n.accidental) % 12

/-- Accidentals may cross the octave: `Cb4` is `B3`. -/
def pitch (n : NoteName) (defaultOctave : Int) : Pitch :=
  n.natural + n.accidental + (n.octave.getD defaultOctave + 1) * 12

/-- As many sharps, or flats, as the accidental counts. -/
def accidentalText (accidental : Int) : List Char :=
  List.replicate accidental.natAbs (if 0 ≤ accidental then '#' else 'b')

def octaveText : Option Int → String
  | none => ""
  | some octave => toString octave

instance : ToString NoteName where
  toString n := String.ofList (n.letter :: accidentalText n.accidental) ++ octaveText n.octave

end NoteName

/-- The pitch that a name spells, in the octave of middle C if it carries none. -/
def Pitch.ofName? (cs : List Char) : Option Pitch := (NoteName.read? cs).map (·.pitch 4)

end Stave
