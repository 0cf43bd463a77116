import Stave.Proofs.Scale.Degrees
import Stave.Proofs.Score.Exact

/-!
# Degree notes

A note that names a degree sounds where the steps of the scale put it, so many turns up or down as
its octave marks say: the octave of the root, in which it is taken, cancels.  It is refused where
that pitch leaves 64 bits.  It is refused as well where the octave on the way there, the root's own
with the marks added, leaves 32, however near the pitch may be.

    pitchOf? c n = the pitch by the steps, if 32 bits hold the octave and
      64 the pitch                                                        (pitchOf?_degree)
    a degree note whose time can be held plays that pitch, or is refused
      for its pitch, as these two numbers can be held or not              (degree_note)
-/

namespace Stave.Score

/-- The pitch of a degree under the octave marks of a note, by the steps of the scale alone. -/
def Setting.stepped (c : Setting) (degree : Int) (n : Note) : Pitch :=
  c.scale.root + c.scale.steps.sum * (n.octaveShift + degree / c.scale.steps.length) +
    (c.scale.steps.take (degree % c.scale.steps.length).toNat).sum

section

variable {c : Setting} {n : Note} {degree : Int}

/-- The octave of the root cancels. -/
theorem rung_eq_stepped (c : Setting) (degree : Int) (n : Note) :
    c.scale.rung (c.scale.rootOctave + n.octaveShift) degree = c.stepped degree n := by
  have hoctave : c.scale.rootOctave + n.octaveShift - c.scale.rootOctave = n.octaveShift := by omega
  rw [Scale.rung, hoctave]
  rfl

theorem pitchOf?_degree (hn : n.tone = .degree degree) :
    pitchOf? c n =
      if Width.int32.Holds (c.scale.rootOctave + n.octaveShift) ∧
          Width.int64.Holds (c.stepped degree n) then some (c.stepped degree n)
      else none := by
  rw [← rung_eq_stepped, ← Scale.degreePitch_eq_rung]
  simp only [pitchOf?, hn, Width.narrow?]
  by_cases hoctave : Width.int32.Holds (c.scale.rootOctave + n.octaveShift)
  · rw [if_pos hoctave]
    simp only [hoctave, true_and]
    rfl
  · rw [if_neg hoctave, if_neg fun h => hoctave h.1]
    rfl

/-- A degree note whose time can be held plays the pitch that the steps of the scale give, if this
pitch can be held and the octave that it is taken in as well; otherwise, and only then, it is
refused for its pitch. -/
theorem degree_note (hn : n.tone = .degree degree) {start beat duration stop : Ratio}
    (hduration : n.duration.mul? beat = some duration) (hstop : start.add? duration = some stop) :
    playNode c start beat (.note n) =
      if Width.int32.Holds (c.scale.rootOctave + n.octaveShift) ∧
          Width.int64.Holds (c.stepped degree n) then
        .ok ⟨[{
          pitch := c.stepped degree n
          start, duration
          velocity := if n.isAccented then c.defaults.accentVelocity else c.defaults.velocity
          articulation := n.articulation }], duration⟩
      else .error (.pitch (toString degree) n.span) := by
  have htimed : playNode c start beat (.note n) =
      eventOf c n start duration >>= fun e => pure ⟨[e], duration⟩ := by
    rw [playNode, hduration]
    show (inTime n.span (start.add? duration) >>= fun _ => _) = _
    rw [hstop]
    rfl
  have htext : toString n.tone = toString degree := by
    rw [hn]
    rfl
  rw [htimed, eventOf, pitchOf?_degree hn, htext]
  by_cases hheld : Width.int32.Holds (c.scale.rootOctave + n.octaveShift) ∧
      Width.int64.Holds (c.stepped degree n)
  · rw [if_pos hheld, if_pos hheld]
    rfl
  · rw [if_neg hheld, if_neg hheld]
    rfl

end

/-- Three uneven steps that repeat after thirteen semitones. -/
def uneven : Setting where
  scale := ⟨60, [2, 1, 10], "uneven", by decide, by decide⟩

/-- The fourth degree below the root, an octave up. -/
def fourthBelow : Note := ⟨.degree (-4), 1, 1, [.accent], ⟨0, 4⟩⟩

theorem degree_note_below :
    playNode uneven 1 1 (.note fourthBelow) = .ok ⟨[⟨50, 1, 1, 120, .accent⟩], 1⟩ := by
  have hstop : Ratio.add? 1 1 = some (Ratio.ofInt 2 (by decide)) := by decide
  have hheld : Width.int32.Holds (uneven.scale.rootOctave + fourthBelow.octaveShift) ∧
      Width.int64.Holds (uneven.stepped (-4) fourthBelow) := by decide
  have htone : fourthBelow.tone = .degree (-4) := rfl
  rw [degree_note htone (by decide) hstop, if_pos hheld]
  rfl

/-- A major scale in the highest octave that 32 bits count. -/
def lastOctave : Setting where
  scale := { plainSetting.scale with root := 25769803776 }

def octaveUp : Note := ⟨.degree 0, 1, 1, [], ⟨0, 2⟩⟩

/-- The octave above has no number any more, and its first degree is refused; its pitch would be
held easily. -/
theorem degree_note_lost :
    playNode lastOctave 0 1 (.note octaveUp) = .error (.pitch "0" ⟨0, 2⟩) ∧
    lastOctave.stepped 0 octaveUp = 25769803788 ∧
    Width.int64.Holds (lastOctave.stepped 0 octaveUp) :=
  ⟨rfl, by decide, by decide⟩

end Stave.Score
