import Stave.Numeral
import Stave.Text.Trim

/-!
# Printed numerals

What is printed for a number is at least one digit, perhaps after a minus sign, with no zero in
front of other digits and no blank anywhere.

    IsNumeral (toString n).toList                                         (isNumeral_toString)
    0 < n → the first digit of n is not 0                                 (toDigits_head)
-/

namespace Stave

/-- At least one digit, perhaps after a minus sign. -/
def IsNumeral (cs : List Char) : Prop :=
  ∃ ds : List Char, ds ≠ [] ∧ (∀ c ∈ ds, c.isDigit = true) ∧ (cs = ds ∨ cs = '-' :: ds)

theorem ne_of_isDigit {c d : Char} (hc : c.isDigit = true) (hd : d.isDigit = false) : c ≠ d := by
  rintro rfl
  rw [hc] at hd
  cases hd

theorem isSpace_of_isDigit {c : Char} (h : c.isDigit = true) : Text.isSpace c = false := by
  simp only [Char.isDigit, Bool.and_eq_true, decide_eq_true_eq, UInt32.le_iff_toNat_le] at h
  have hlow : 48 ≤ c.toNat := h.1
  have hhigh : c.toNat ≤ 57 := h.2
  simp only [Text.isSpace, Bool.or_eq_false_iff, Bool.and_eq_false_iff, decide_eq_false_iff_not,
    beq_eq_false_iff_ne]
  omega

theorem isDigit_of_mem_toDigits {n : Nat} {c : Char} (h : c ∈ Nat.toDigits 10 n) :
    c.isDigit = true :=
  Nat.isDigit_of_mem_toDigits (by decide) (by decide) h

/-- A number other than zero is printed without a leading zero. -/
theorem toDigits_head {n : Nat} (h : 0 < n) : ∃ d ds, Nat.toDigits 10 n = d :: ds ∧ d ≠ '0' := by
  induction n using Nat.strongRecOn with
  | ind n ih =>
    rcases Nat.lt_or_ge n 10 with hn | hn
    · have hall : ∀ d < 10, 0 < d → d.digitChar ≠ '0' := by decide
      exact ⟨n.digitChar, [], Nat.toDigits_of_lt_base hn, hall n hn h⟩
    · obtain ⟨d, ds, hds, hd⟩ := ih (n / 10) (by omega) (by omega)
      refine ⟨d, ds ++ [(n % 10).digitChar], ?_, hd⟩
      rw [Nat.toDigits_of_base_le (by decide) hn, hds, List.cons_append]

theorem isNumeral_toString (n : Int) : IsNumeral (toString n).toList := by
  rw [Numeral.toList_toString]
  refine ⟨Nat.toDigits 10 n.natAbs, Nat.toDigits_ne_nil, fun _ => isDigit_of_mem_toDigits, ?_⟩
  split
  · exact .inr rfl
  · exact .inl rfl

namespace IsNumeral

variable {cs : List Char}

theorem ne_nil (h : IsNumeral cs) : cs ≠ [] := by
  obtain ⟨ds, hne, -, rfl | rfl⟩ := h
  · exact hne
  · exact List.cons_ne_nil _ _

theorem minus_or_digit (h : IsNumeral cs) {c : Char} (hc : c ∈ cs) : c = '-' ∨ c.isDigit = true := by
  obtain ⟨ds, -, hds, rfl | rfl⟩ := h
  · exact .inr (hds c hc)
  · exact (List.mem_cons.1 hc).imp_right (hds c)

theorem first {c : Char} {tail : List Char} (h : IsNumeral (c :: tail)) : c = '-' ∨ c.isDigit = true :=
  h.minus_or_digit List.mem_cons_self

/-- A character that is neither a minus sign nor a digit is not in a numeral. -/
theorem ne_of_mem (h : IsNumeral cs) {c d : Char} (hc : c ∈ cs) (hminus : d ≠ '-')
    (hd : d.isDigit = false) : c ≠ d := by
  rcases h.minus_or_digit hc with rfl | hc
  · exact hminus.symm
  · exact ne_of_isDigit hc hd

theorem isSpace_of_mem (h : IsNumeral cs) {c : Char} (hc : c ∈ cs) : Text.isSpace c = false := by
  rcases h.minus_or_digit hc with rfl | hc
  · rfl
  · exact isSpace_of_isDigit hc

end IsNumeral

/-- Text without blanks is its own trim. -/
theorem trim_of_forall {cs : List Char} (h : ∀ c ∈ cs, Text.isSpace c = false) : Text.trim cs = cs :=
  Text.trim_eq_self (fun c hc => h c (List.mem_of_mem_head? hc))
    fun c hc => h c (List.mem_of_mem_getLast? hc)

end Stave
