import Stave.Proofs.Pitch.Written
import Stave.Proofs.Score.Reread
import Stave.Settings

/-!
# Pitches and names back and forth

A pitch goes into a class name and an octave number, and comes back out of them.  On the way the
octave is brought to 32 bits, and that alone can lose the pitch.

    NoteName.read? p.name.toList = some n,  n.pitch 4 = p % 12 + (p.octave + 1) * 12   (read?_name)
    no text is both a name and a number                                        (integer?_of_read?)
    pitches and names, there and back                                          (names_round_trip)
-/

namespace Stave

/-! ## Class names -/

/-- Each class name is a name without an octave, of its own class. -/
theorem read?_sharpNames : ∀ k < 12, (NoteName.read? (sharpNames.getD k "").toList).map
    (fun n => (n.octave, n.natural + n.accidental)) = some (none, (k : Int)) := by
  decide +kernel

theorem isSpace_of_mem_sharpNames {k : Nat} (hk : k < 12) :
    ∀ c ∈ (sharpNames.getD k "").toList, Text.isSpace c = false := by
  have hall : ∀ k < 12, (sharpNames.getD k "").toList.all (!Text.isSpace ·) = true := by decide
  intro c hc
  exact (Bool.not_eq_true' _).mp (List.all_eq_true.1 (hall k hk) c hc)

/-- An octave may be written behind a name that has none. -/
theorem NoteName.read?_append {cs ds : List Char} {n : NoteName} {octave : Option Int}
    (hn : read? cs = some n) (hnone : n.octave = none)
    (hds : ∀ c ∈ ds.head?, isAccidental c = false) (hoctave : octaveOf? ds = some octave) :
    read? (cs ++ ds) = some { n with octave } := by
  cases cs with
  | nil => cases hn
  | cons letter cs =>
    obtain ⟨natural, hletter, hn⟩ := Option.bind_eq_some_iff.1 hn
    obtain ⟨o, ho, hn⟩ := Option.bind_eq_some_iff.1 hn
    cases hn
    cases hnone
    have hempty : cs.dropWhile isAccidental = [] := by
      cases hrest : cs.dropWhile isAccidental with
      | nil => rfl
      | cons c rest =>
        rw [hrest] at ho
        obtain ⟨m, -, hm⟩ := Option.map_eq_some_iff.1 ho
        cases hm
    have hmarks : ∀ c ∈ cs, isAccidental c = true := List.dropWhile_eq_nil_iff.1 hempty
    obtain ⟨htake, hdrop⟩ := Score.takeWhile_of_head hds
    rw [List.cons_append, read?, List.takeWhile_append_of_pos hmarks,
      List.dropWhile_append_of_pos hmarks, htake, hdrop, hoctave, List.append_nil,
      List.takeWhile_eq_self_iff.2 hmarks]
    show (letterClass? letter).bind _ = _
    rw [hletter]
    rfl

theorem not_isDigit_of_letter {c : Char} (h : 'A' ≤ c) : c.isDigit = false := by
  have hc : 65 ≤ c.toNat := h
  refine Bool.eq_false_iff.2 fun hdigit => ?_
  simp only [Char.isDigit, Bool.and_eq_true, decide_eq_true_eq, UInt32.le_iff_toNat_le] at hdigit
  have hle : c.toNat ≤ 57 := hdigit.2
  omega

/-- No name is also a number. -/
theorem integer?_of_read? {w : Width} {cs : List Char} {n : NoteName}
    (h : NoteName.read? cs = some n) : Numeral.integer? w cs = none := by
  rw [Option.eq_none_iff_forall_ne_some]
  intro m hm
  obtain ⟨v, rfl, -⟩ := read?_eq_some_iff.1 h
  obtain ⟨⟨sign, digits, hne, hdigits⟩, htext, -⟩ := integer?_eq_some_iff.1 hm
  have hletter := v.letter_le.1
  cases sign with
  | none =>
    obtain ⟨c, cs, rfl⟩ := List.exists_cons_of_ne_nil hne
    have hdigit := hdigits c List.mem_cons_self
    rw [(List.cons.inj htext).1, not_isDigit_of_letter hletter] at hdigit
    cases hdigit
  | minus =>
    rw [← (List.cons.inj htext).1] at hletter
    exact absurd hletter (by decide)
  | plus =>
    rw [← (List.cons.inj htext).1] at hletter
    exact absurd hletter (by decide)

/-! ## Roots -/

namespace ScaleChoice

variable {s : ScaleChoice} {p : Pitch}

theorem rootPitch_toString (h : Width.int64.Holds p) :
    { s with root := toString p }.rootPitch = .ok p := by
  have htrim : Text.trim (toString p).toList = (toString p).toList :=
    trim_of_forall fun _ => (isNumeral_toString p).isSpace_of_mem
  simp only [rootPitch, htrim, Numeral.integer?_toString .int64 p h]
  rfl

theorem rootPitch_of_read? {root : String} {n : NoteName} (h : NoteName.read? root.toList = some n)
    (htrim : Text.trim root.toList = root.toList) : { s with root }.rootPitch = .ok (n.pitch 4) := by
  have hnone := integer?_of_read? (w := .int64) h
  simp only [rootPitch, htrim, hnone, Pitch.ofName?, h]
  rfl

end ScaleChoice

/-! ## Pitches -/

namespace Pitch

variable {p : Pitch}

theorem holds_octave (p : Pitch) : Width.int32.Holds p.octave := Width.holds_wrap (by decide) _

theorem octave_eq_iff : p.octave = p / 12 - 1 ↔ Width.int32.Holds (p / 12 - 1) :=
  ⟨fun h => h ▸ p.holds_octave, Width.wrap_of_holds⟩

theorem toList_name (p : Pitch) : p.name.toList =
    (sharpNames.getD (p % 12).toNat "").toList ++ (toString p.octave).toList := by
  rw [name, String.toList_append]

/-- What is read has the class of the pitch, and its octave as 32 bits hold it. -/
theorem read?_name (p : Pitch) : ∃ n, NoteName.read? p.name.toList = some n ∧
    n.pitch 4 = p % 12 + (p.octave + 1) * 12 := by
  have hclass : (p % 12).toNat < 12 := by omega
  obtain ⟨n, hn, hsame⟩ := Option.map_eq_some_iff.1 (read?_sharpNames _ hclass)
  obtain ⟨hnone, hnatural⟩ := Prod.mk.inj hsame
  have hheld : ∀ octave ∈ some p.octave, Width.int32.Holds octave := by
    rintro _ ⟨⟩
    exact p.holds_octave
  have hoctave := Score.octaveOf?_octaveText hheld
  refine ⟨{ n with octave := some p.octave }, ?_, ?_⟩
  · rw [toList_name]
    exact NoteName.read?_append hn hnone (Score.octaveText_head (some p.octave)) hoctave
  · show n.natural + n.accidental + (p.octave + 1) * 12 = _
    omega

/-- Nothing in the name of a pitch is blank. -/
theorem trim_name (p : Pitch) : Text.trim p.name.toList = p.name.toList := by
  refine trim_of_forall fun c hc => ?_
  rw [toList_name] at hc
  rcases List.mem_append.1 hc with hc | hc
  · exact isSpace_of_mem_sharpNames (by omega) c hc
  · exact (isNumeral_toString p.octave).isSpace_of_mem hc

/-- The name of a pitch is read back, as the same pitch if and only if 32 bits hold its octave; then
the name and the number stand for the same root.  A name that was read, with no more accidentals
than 32 bits count, is printed as a text that is read as the same name, so that it has the same
pitch whatever octave it is given. -/
theorem names_round_trip (h : Width.int64.Holds p) :
    (∃ q, ofName? p.name.toList = some q ∧ (q = p ↔ Width.int32.Holds (p / 12 - 1))) ∧
    (Width.int32.Holds (p / 12 - 1) → ∀ s : ScaleChoice,
      { s with root := toString p }.rootPitch = .ok p ∧
      { s with root := p.name }.rootPitch = .ok p) ∧
    ∀ cs n, cs.countP NoteName.isAccidental < 2 ^ 31 → NoteName.read? cs = some n →
      n.accidental.natAbs < 2 ^ 31 ∧
      NoteName.read? (toString n).toList = some n ∧
      ∀ octave, (NoteName.read? (toString n).toList).map (·.pitch octave) = some (n.pitch octave) := by
  obtain ⟨n, hn, hpitch⟩ := p.read?_name
  have hsame : n.pitch 4 = p ↔ Width.int32.Holds (p / 12 - 1) := by
    have hback : ∀ m o : Int, m % 12 + (o + 1) * 12 = m ↔ o = m / 12 - 1 := by omega
    rw [hpitch, ← octave_eq_iff]
    exact hback p p.octave
  refine ⟨⟨n.pitch 4, ?_, hsame⟩, fun hholds s => ?_, fun cs n hfew hread => ?_⟩
  · rw [ofName?, hn, Option.map_some]
  · have hroot := ScaleChoice.rootPitch_of_read? (s := s) hn p.trim_name
    rw [hsame.2 hholds] at hroot
    exact ⟨ScaleChoice.rootPitch_toString h, hroot⟩
  · have hagain := Score.read?_toString (Score.read?_spelt hread)
    refine ⟨?_, hagain, fun octave => by rw [hagain, Option.map_some]⟩
    obtain ⟨w, rfl, -, rfl⟩ := read?_eq_some_iff.1 hread
    rw [w.wrap_accidental hfew]
    exact w.net_le.trans_lt hfew

/-- Below zero, and with flats that reach into the octave below. -/
theorem names_round_trip_below :
    Width.int64.Holds (-1) ∧ name (-1) = "B-2" ∧ ofName? "B-2".toList = some (-1) ∧
    { ({} : ScaleChoice) with root := "B-2" }.rootPitch = .ok (-1) ∧
    NoteName.read? "Cbb#-1".toList = some ⟨'C', -1, some (-1)⟩ ∧
    NoteName.read? (toString (⟨'C', -1, some (-1)⟩ : NoteName)).toList = some ⟨'C', -1, some (-1)⟩ := by
  have hread : NoteName.read? "Cbb#-1".toList = some ⟨'C', -1, some (-1)⟩ := by decide +kernel
  obtain ⟨⟨q, hq, hsame⟩, hroots, hnames⟩ := names_round_trip (p := -1) (by decide)
  have hname : name (-1) = "B-2" := by decide +kernel
  rw [hname, hsame.2 (by decide)] at hq
  have hroot := (hroots (by decide) {}).2
  rw [hname] at hroot
  exact ⟨by decide, hname, hq, hroot, hread, (hnames _ _ (by decide) hread).2.1⟩

end Pitch

end Stave
