import Stave.Proofs.Ratio.Decimal

/-!
# Ratios through text

A ratio that is written is read back as the same ratio.  There is one exception: a whole number is
read digits first and sign second, and the digits of the least one that 64 bits hold do not fit.
As a quotient, numerator and denominator apart, that one is read like any other.

    ofDecimal? (toString n).toList = some (ofInt n h)                      (ofDecimal?_toString)
    read (toString q.num ++ "/" ++ toString q.den) = .ok q                 (read_quotient)
    read (toString q) = .ok q ↔ q.Legible                                  (read_toString_iff)
-/

namespace Stave.Ratio

open Stave.Text

/-- A ratio other than the least whole number. -/
def Legible (q : Ratio) : Prop := q.den = 1 → q.num ≠ Width.int64.least

theorem Legible.of_nonneg {q : Ratio} (h : 0 ≤ q) : q.Legible := by
  have hnum : (0 : Int) * q.den ≤ q.num * (1 : Nat) := h
  intro _ hleast
  rw [hleast] at hnum
  exact absurd hnum (by simp [Width.int64])

/-! ## Whole numbers -/

theorem ofQuotient?_one {n : Int} (h : Width.int64.Holds n) : ofQuotient? n 1 = some (ofInt n h) := by
  rw [ofQuotient?_eq_some_iff (by decide), toRat_ofInt]
  simp

/-- A whole number as a literal without a point. -/
def wholeDecimal (n : Int) : Decimal where
  negative := n < 0
  whole := Nat.toDigits 10 n.natAbs
  places := none
  whole_ne_nil := Nat.toDigits_ne_nil
  whole_isDigit := fun _ => isDigit_of_mem_toDigits
  places_isDigit := nofun

theorem scaled_wholeDecimal (n : Int) : (wholeDecimal n).scaled = n.natAbs := by
  show Nat.ofDigitChars 10 (Nat.toDigits 10 n.natAbs) 0 * 10 ^ 0 + 0 = n.natAbs
  rw [Nat.ofDigitChars_ten_toDigits, Nat.pow_zero, Nat.mul_one, Nat.add_zero]

theorem ofDecimal?_toString {n : Int} (h : Width.int64.Holds n) (habs : Width.int64.Holds n.natAbs) :
    ofDecimal? (toString n).toList = some (ofInt n h) := by
  have hfits : (wholeDecimal n).Fits := by
    refine ⟨Nat.zero_le _, ?_, ?_⟩
    · exact (Int.ofNat_le.2 (wholeDecimal n).wholeValue_le_scaled).trans
        (scaled_wholeDecimal n ▸ habs.2)
    · exact scaled_wholeDecimal n ▸ habs.2
  have htext : (toString n).toList = (wholeDecimal n).text := by
    rw [Numeral.toList_toString]
    simp [Decimal.text, Decimal.signText, Decimal.placesText, wholeDecimal]
  have hnum : (wholeDecimal n).numerator = n := by
    have hsign : (wholeDecimal n).negative = decide (n < 0) := rfl
    rw [Decimal.numerator, scaled_wholeDecimal, hsign]
    by_cases hn : n < 0
    · rw [decide_eq_true hn, if_pos rfl]
      omega
    · rw [decide_eq_false hn, if_neg Bool.false_ne_true]
      omega
  rw [htext, hfits.ofDecimal?_text, hnum]
  exact ofQuotient?_one h

/-! ## All ratios -/

theorem natAbs_holds {q : Ratio} (h : q.Legible) (hden : q.den = 1) : Width.int64.Holds q.num.natAbs := by
  have hleast := h hden
  have hnum := q.num_holds
  simp only [Width.Holds, Width.int64] at hleast hnum ⊢
  omega

theorem toList_quotient (n : Int) (d : Nat) : (toString n ++ "/" ++ toString d).toList =
    (toString n).toList ++ '/' :: (toString (d : Int)).toList := by
  rw [String.toList_append, String.toList_append, List.append_assoc]
  rfl

theorem toList_toString {q : Ratio} : (toString q).toList =
    if q.den = 1 then (toString q.num).toList
    else (toString q.num).toList ++ '/' :: (toString (q.den : Int)).toList := by
  show (if q.den = 1 then toString q.num else toString q.num ++ "/" ++ toString q.den).toList = _
  split
  · rfl
  · exact toList_quotient q.num q.den

theorem isSpace_of_mem_quotient {n d : Int} : ∀ c ∈ (toString n).toList ++ '/' :: (toString d).toList,
    isSpace c = false := by
  intro c hc
  rcases List.mem_append.1 hc with hc | hc
  · exact (isNumeral_toString n).isSpace_of_mem hc
  · rcases List.mem_cons.1 hc with rfl | hc
    · rfl
    · exact (isNumeral_toString d).isSpace_of_mem hc

theorem trim_toString (q : Ratio) : trim (toString q).toList = (toString q).toList := by
  refine trim_of_forall fun c hc => ?_
  rw [toList_toString] at hc
  split at hc
  · exact (isNumeral_toString _).isSpace_of_mem hc
  · exact isSpace_of_mem_quotient c hc

theorem trim_integer (n : Int) : trim (toString n).toList = (toString n).toList :=
  trim_of_forall fun _ => (isNumeral_toString n).isSpace_of_mem

theorem ne_slash_of_mem (n : Int) : ∀ c ∈ (toString n).toList, c ≠ '/' := fun _ hc =>
  (isNumeral_toString n).ne_of_mem hc (by decide) rfl

/-- Spelt as a quotient, any ratio is read back, whole or not. -/
theorem read?_quotient (q : Ratio) :
    read? ((toString q.num).toList ++ '/' :: (toString (q.den : Int)).toList) = some q := by
  have hq : ofQuotient? q.num q.den = some q :=
    (ofQuotient?_eq_some_iff q.den_ne_zero).2 (by exact_mod_cast q.toRat_eq_div)
  rw [read?, span_before (ne_slash_of_mem q.num)]
  dsimp only
  rw [trim_integer, trim_integer, Numeral.integer?_toString _ _ q.num_holds,
    Numeral.integer?_toString _ _ q.den_holds]
  exact hq

theorem read_quotient (q : Ratio) : read (toString q.num ++ "/" ++ toString q.den) = .ok q := by
  rw [read, toList_quotient, trim_of_forall isSpace_of_mem_quotient, read?_quotient]

theorem read?_toString {q : Ratio} (h : q.Legible) : read? (toString q).toList = some q := by
  rw [toList_toString]
  split
  · next hden =>
    rw [read?, span_without (ne_slash_of_mem q.num)]
    show ofDecimal? (toString q.num).toList = some q
    rw [ofDecimal?_toString q.num_holds (natAbs_holds h hden)]
    exact congrArg some (Ratio.ext rfl hden.symm)
  · exact read?_quotient q

/-- Writing and reading back loses nothing, but for the least whole number. -/
theorem read_toString_iff {q : Ratio} : read (toString q) = .ok q ↔ q.Legible := by
  constructor
  · rintro hread hden hnum
    have hq : q = ofInt Width.int64.least (by decide) := Ratio.ext hnum hden
    rw [hq] at hread
    exact absurd hread (by decide +kernel)
  · intro h
    rw [read, trim_toString, read?_toString h]

end Stave.Ratio
