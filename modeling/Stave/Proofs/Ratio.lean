import Mathlib.Algebra.Order.Field.Rat
import Mathlib.Data.Rat.Floor
import Mathlib.Tactic.FieldSimp
import Mathlib.Tactic.Positivity
import Stave.Ratio

/-!
# Ratios as rational numbers

A ratio is a rational number whose parts fit 64 bits.  Every checked operation gives the rational
result whenever it is such a number, and refuses it otherwise.

    d ≠ 0 → (ofQuotient? n d = some q ↔ q.toRat = n / d)        (ofQuotient?_eq_some_iff)
    a.mul? b = some q ↔ q.toRat = a.toRat * b.toRat             (mul?_eq_some_iff, add?, sub?, div?)
    a ≤ b ↔ a.toRat ≤ b.toRat                                   (toRat_le_toRat)
-/

namespace Stave.Ratio

def toRat (q : Ratio) : ℚ := ⟨q.num, q.den, Nat.pos_iff_ne_zero.1 q.den_pos, q.reduced⟩

/-! ## The embedding -/

theorem toRat_injective : Function.Injective toRat := by
  intro a b h
  exact Ratio.ext (congrArg Rat.num h) (congrArg Rat.den h)

theorem den_ne_zero (q : Ratio) : (q.den : Int) ≠ 0 := by
  have := q.den_pos
  omega

theorem toRat_eq_div (q : Ratio) : q.toRat = q.num / q.den := by
  rw [toRat, Rat.mk_eq_divInt, Rat.divInt_eq_div]
  rfl

/-- A rational number is a ratio if 64 bits hold both its parts. -/
theorem exists_toRat_eq_iff {x : ℚ} :
    (∃ q : Ratio, q.toRat = x) ↔ Width.int64.Holds x.num ∧ Width.int64.Holds x.den := by
  constructor
  · rintro ⟨q, rfl⟩
    exact ⟨q.num_holds, q.den_holds⟩
  · rintro ⟨hnum, hden⟩
    exact ⟨⟨x.num, x.den, x.den_pos, x.reduced, hnum, hden⟩, rfl⟩

@[simp] theorem toRat_zero : (0 : Ratio).toRat = 0 := rfl

@[simp] theorem toRat_one : (1 : Ratio).toRat = 1 := rfl

theorem toRat_ofInt (n : Int) (h : Width.int64.Holds n) : (ofInt n h).toRat = n := rfl

@[simp] theorem toRat_le_toRat {a b : Ratio} : a.toRat ≤ b.toRat ↔ a ≤ b := by
  have ha : (0 : ℚ) < a.den := by exact_mod_cast a.den_pos
  have hb : (0 : ℚ) < b.den := by exact_mod_cast b.den_pos
  rw [toRat_eq_div, toRat_eq_div, div_le_div_iff₀ ha hb]
  show (a.num : ℚ) * b.den ≤ b.num * a.den ↔ a.num * b.den ≤ b.num * a.den
  exact_mod_cast Iff.rfl

theorem toRat_nonneg {q : Ratio} : 0 ≤ q.toRat ↔ 0 ≤ q := by
  rw [← toRat_zero, toRat_le_toRat]

theorem toRat_max (a b : Ratio) : (max a b).toRat = max a.toRat b.toRat := by
  show (if a ≤ b then b else a).toRat = _
  split
  · next h => rw [max_eq_right (toRat_le_toRat.2 h)]
  · next h => rw [max_eq_left (le_of_not_ge fun h' => h (toRat_le_toRat.1 h'))]

/-- A running maximum does not depend on the order of what it runs over. -/
theorem max_max_swap (a b c : Ratio) : max (max a b) c = max (max a c) b := by
  apply toRat_injective
  simp only [toRat_max]
  exact max_right_comm _ _ _

theorem isZero_iff (q : Ratio) : q.isZero = true ↔ q.toRat = 0 := by
  rw [← toRat_zero, toRat_injective.eq_iff]
  refine ⟨fun h => Ratio.ext ?_ ?_, fun h => h ▸ rfl⟩
  · exact of_decide_eq_true h
  · have hn : q.num = 0 := of_decide_eq_true h
    have hc := q.reduced
    rw [hn] at hc
    exact (Nat.coprime_zero_left _).1 hc

theorem isNegative_iff (q : Ratio) : q.isNegative = true ↔ ¬ 0 ≤ q := by
  show decide (q.num < 0) = true ↔ ¬ 0 * (q.den : Int) ≤ q.num * 1
  rw [decide_eq_true_iff]
  omega

theorem zero_lt_iff (q : Ratio) : 0 < q ↔ ¬ (q.isZero || q.isNegative) = true := by
  rw [Bool.or_eq_true, not_or]
  show 0 * (q.den : Int) < q.num * 1 ↔ ¬ (q.num == 0) = true ∧ ¬ decide (q.num < 0) = true
  rw [beq_iff_eq, decide_eq_true_eq]
  omega

theorem toRat_pos {q : Ratio} : 0 < q.toRat ↔ 0 < q := by
  rw [zero_lt_iff, Bool.or_eq_true, not_or, isZero_iff, isNegative_iff, not_not, ← toRat_nonneg]
  exact ⟨fun h => ⟨h.ne', h.le⟩, fun h => lt_of_le_of_ne h.2 (Ne.symm h.1)⟩

/-! ## Reduction -/

theorem lowestNum_eq {n d : Int} : lowestNum n d = (Rat.divInt n d).num := by
  rw [Rat.num_divInt, lowestNum, Int.gcd_comm]
  refine Int.tdiv_eq_ediv_of_dvd ?_
  exact Dvd.dvd.mul_left (Int.gcd_dvd_left n d) _

theorem lowestDen_eq {n d : Int} (h : d ≠ 0) : lowestDen n d = (Rat.divInt n d).den := by
  rw [Rat.den_divInt, if_neg h, lowestDen, Int.gcd_comm]
  rfl

/-- A quotient is refused exactly when no ratio is equal to it. -/
theorem ofQuotient?_eq_some_iff {n d : Int} {q : Ratio} (h : d ≠ 0) :
    ofQuotient? n d = some q ↔ q.toRat = n / d := by
  rw [← Rat.divInt_eq_div, ofQuotient?, dif_neg h]
  constructor
  · intro hq
    split at hq
    · rw [← Option.some.inj hq]
      exact Rat.ext lowestNum_eq (lowestDen_eq h)
    · cases hq
  · intro hq
    have hn : lowestNum n d = q.num := by rw [lowestNum_eq, ← hq]; rfl
    have hd : lowestDen n d = q.den := by rw [lowestDen_eq h, ← hq]; rfl
    rw [dif_pos ⟨hn ▸ q.num_holds, hd ▸ q.den_holds⟩]
    exact congrArg some (Ratio.ext hn hd)

theorem ofQuotient?_zero (n : Int) : ofQuotient? n 0 = none := dif_pos rfl

/-- Parts that 64 bits hold without their signs are only reduced further. -/
theorem exists_ofQuotient? {n d : Int} (h : d ≠ 0) (hn : n.natAbs ≤ Width.int64.most)
    (hd : d.natAbs ≤ Width.int64.most) : ∃ q, ofQuotient? n d = some q := by
  have hnum : (lowestNum n d).natAbs ≤ n.natAbs := by
    rw [natAbs_lowestNum h]
    exact Nat.div_le_self _ _
  have hden : lowestDen n d ≤ d.natAbs := Nat.div_le_self _ _
  simp only [Width.int64] at hn hd
  refine ⟨_, dif_neg h |>.trans (dif_pos ⟨?_, ?_⟩)⟩
  · simp only [Width.Holds, Width.int64]
    omega
  · simp only [Width.Holds, Width.int64]
    omega

/-! ## Arithmetic -/

section

variable {a b q : Ratio}

theorem den_cast_ne_zero (q : Ratio) : (q.den : ℚ) ≠ 0 := by exact_mod_cast den_ne_zero q

theorem add?_eq_some_iff : a.add? b = some q ↔ q.toRat = a.toRat + b.toRat := by
  have ha := den_cast_ne_zero a
  have hb := den_cast_ne_zero b
  rw [add?, ofQuotient?_eq_some_iff (mul_ne_zero a.den_ne_zero b.den_ne_zero), toRat_eq_div a,
    toRat_eq_div b, div_add_div _ _ ha hb]
  push_cast
  rw [mul_comm (a.den : ℚ) b.num]

theorem sub?_eq_some_iff : a.sub? b = some q ↔ q.toRat = a.toRat - b.toRat := by
  have ha := den_cast_ne_zero a
  have hb := den_cast_ne_zero b
  rw [sub?, ofQuotient?_eq_some_iff (mul_ne_zero a.den_ne_zero b.den_ne_zero), toRat_eq_div a,
    toRat_eq_div b, div_sub_div _ _ ha hb]
  push_cast
  rw [mul_comm (a.den : ℚ) b.num]

theorem mul?_eq_some_iff : a.mul? b = some q ↔ q.toRat = a.toRat * b.toRat := by
  rw [mul?, ofQuotient?_eq_some_iff (mul_ne_zero a.den_ne_zero b.den_ne_zero), toRat_eq_div a,
    toRat_eq_div b, div_mul_div_comm]
  push_cast
  rfl

theorem add?_eq_none_iff : a.add? b = none ↔ ¬ ∃ q : Ratio, q.toRat = a.toRat + b.toRat := by
  simp only [Option.eq_none_iff_forall_ne_some, ne_eq, add?_eq_some_iff, not_exists]

theorem mul?_eq_none_iff : a.mul? b = none ↔ ¬ ∃ q : Ratio, q.toRat = a.toRat * b.toRat := by
  simp only [Option.eq_none_iff_forall_ne_some, ne_eq, mul?_eq_some_iff, not_exists]

theorem num_eq_zero_iff (q : Ratio) : q.num = 0 ↔ q.toRat = 0 := by
  rw [← isZero_iff]
  exact decide_eq_true_iff.symm

theorem div?_eq_some_iff (hb : b.toRat ≠ 0) : a.div? b = some q ↔ q.toRat = a.toRat / b.toRat := by
  have hn : b.num ≠ 0 := fun h => hb ((num_eq_zero_iff b).1 h)
  rw [div?, ofQuotient?_eq_some_iff (mul_ne_zero a.den_ne_zero hn), toRat_eq_div a,
    toRat_eq_div b, div_div_div_eq]
  push_cast
  rfl

/-- Division by zero is refused, so a quotient is exact without a side condition. -/
theorem toRat_of_div? (h : a.div? b = some q) : q.toRat = a.toRat / b.toRat := by
  by_cases hb : b.toRat = 0
  · rw [div?, (num_eq_zero_iff b).2 hb, mul_zero, ofQuotient?_zero] at h
    cases h
  · exact (div?_eq_some_iff hb).1 h

theorem one_mul? (q : Ratio) : mul? 1 q = some q := mul?_eq_some_iff.2 (by rw [toRat_one, one_mul])

theorem mul?_one (q : Ratio) : q.mul? 1 = some q := mul?_eq_some_iff.2 (by rw [toRat_one, mul_one])

theorem mul?_nonneg (ha : 0 ≤ a) (hb : 0 ≤ b) (h : a.mul? b = some q) : 0 ≤ q := by
  rw [← toRat_nonneg] at ha hb ⊢
  rw [mul?_eq_some_iff.1 h]
  positivity

end

/-- A partial sum that can be held is exact. -/
theorem toRat_of_foldlM_add? {qs : List Ratio} {first q : Ratio} (h : qs.foldlM add? first = some q) :
    q.toRat = first.toRat + (qs.map toRat).sum := by
  induction qs generalizing first with
  | nil =>
    cases h
    simp
  | cons p qs ih =>
    rw [List.foldlM_cons] at h
    obtain ⟨r, hr, h⟩ := Option.bind_eq_some_iff.1 h
    rw [ih h, add?_eq_some_iff.1 hr, List.map_cons, List.sum_cons, add_assoc]

theorem toRat_of_sum? {qs : List Ratio} {q : Ratio} (h : sum? qs = some q) :
    q.toRat = (qs.map toRat).sum := by
  rw [toRat_of_foldlM_add? h, toRat_zero, zero_add]

theorem toRat_foldl_max (qs : List Ratio) (q : Ratio) :
    (qs.foldl max q).toRat = (qs.map toRat).foldl max q.toRat := by
  induction qs generalizing q with
  | nil => rfl
  | cons p qs ih => rw [List.foldl_cons, ih, toRat_max, List.map_cons, List.foldl_cons]

theorem floor_toRat (q : Ratio) : ⌊q.toRat⌋ = q.floor := Rat.floor_def q.toRat

end Stave.Ratio
