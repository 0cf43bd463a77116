import Stave.Proofs.Except
import Stave.Proofs.Scale
import Stave.Proofs.Score.Exact

/-!
# Named notes

A named note is placed on the scale and read back from it.  What comes back is the pitch of its
name, shifted by its octave marks, on every scale whose root is near enough for 64 bits to hold the
distance.  From a root farther away the distance is cut, and the note sounds where it was cut.

    pitchOf? c n = some p → n.tone = .named name →
      p = c.scale.root + clamp (c.absolute name n - c.scale.root)         (pitchOf?_named)
    playNode c start beat (.note n) = .ok p → n.tone = .named name →
      the one event of p has the pitch of the name if and only if 64
      bits hold its distance to the root                                  (named_pitch)
-/

namespace Stave.Score

/-- The pitch of a name under the octave marks of a note, whatever the scale. -/
def Setting.absolute (c : Setting) (name : NoteName) (n : Note) : Pitch :=
  name.pitch c.defaults.octave + 12 * n.octaveShift

section

variable {c : Setting} {n : Note} {name : NoteName}

theorem pitchOf?_named {p : Pitch} (hn : n.tone = .named name) (h : pitchOf? c n = some p) :
    p = c.scale.root + Width.int64.clamp (c.absolute name n - c.scale.root) := by
  simp only [pitchOf?, hn] at h
  obtain ⟨target, htarget, h⟩ := Option.bind_eq_some_iff.1 h
  obtain ⟨below, hbelow, h⟩ := Option.bind_eq_some_iff.1 h
  obtain ⟨rfl, -⟩ := Width.narrow?_eq_some_iff.1 htarget
  obtain ⟨rfl, -⟩ := Width.narrow?_eq_some_iff.1 hbelow
  obtain ⟨rfl, -⟩ := Width.narrow?_eq_some_iff.1 h
  exact c.scale.degreePitch_locate _

theorem playNode_note {start beat : Ratio} {p : Passage} (h : playNode c start beat (.note n) = .ok p) :
    ∃ e, p.events = [e] ∧ pitchOf? c n = some e.pitch := by
  rw [playNode] at h
  obtain ⟨duration, -, h⟩ := bind_eq_ok h
  obtain ⟨_, -, h⟩ := bind_eq_ok h
  obtain ⟨e, he, rfl⟩ := bind_pure_eq_ok h
  unfold eventOf at he
  split at he
  · next pitch hp =>
    cases he
    exact ⟨_, rfl, hp⟩
  · cases he

/-- A named note keeps its pitch on every scale, as far as 64 bits hold the distance to the root. -/
theorem named_pitch {start beat : Ratio} {p : Passage} (hn : n.tone = .named name)
    (h : playNode c start beat (.note n) = .ok p) :
    ∃ e, p.events = [e] ∧
      (e.pitch = name.pitch c.defaults.octave + 12 * n.octaveShift ↔
        Width.int64.Holds (name.pitch c.defaults.octave + 12 * n.octaveShift - c.scale.root)) := by
  obtain ⟨e, he, hp⟩ := playNode_note h
  refine ⟨e, he, ?_⟩
  rw [pitchOf?_named hn hp]
  exact Width.add_clamp_sub_eq_iff

end

/-- Steps of an augmented chord, on a root below all notes of a keyboard. -/
def augmented : Setting where
  scale := ⟨-1000, [4, 4, 4], "augmented", by decide, by decide⟩

/-- B flat two octaves down from the third. -/
def lowFlat : Note := ⟨.named ⟨'B', -1, some 3⟩, 1, -2, [.accent], default⟩

theorem named_pitch_off_scale : ∃ e, (playNode augmented 0 1 (.note lowFlat)).toOption.map
    Passage.events = some [e] ∧ e.pitch = 34 := by
  have hplays : (playNode augmented 0 1 (.note lowFlat)).toOption.isSome = true := by decide +kernel
  cases h : playNode augmented 0 1 (.note lowFlat) with
  | error e =>
    rw [h] at hplays
    cases hplays
  | ok p =>
    obtain ⟨e, he, hpitch⟩ := named_pitch rfl h
    exact ⟨e, congrArg some he, hpitch.2 (by decide)⟩

/-- A major scale on a root almost as low as 64 bits allow. -/
def abyss : Setting where
  scale := { plainSetting.scale with root := -9223372036854775803 }

def middleC : Note := ⟨.named ⟨'C', 0, some 4⟩, 1, 0, [], default⟩

/-- From so low a root, middle C sounds more than four octaves too low. -/
theorem named_pitch_cut : ((playNode abyss 0 1 (.note middleC)).toOption.map fun p =>
    p.events.map Event.pitch) = some [4] ∧
    NoteName.pitch ⟨'C', 0, some 4⟩ abyss.defaults.octave + 12 * middleC.octaveShift = 60 := by
  decide +kernel

end Stave.Score
