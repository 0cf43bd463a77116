import Mathlib.Algebra.Order.Group.Int
import Mathlib.Algebra.Order.Ring.Abs
import Mathlib.Algebra.Order.Ring.Int
import Stave.Width

/-!
# Room to work in

Numbers of 64 bits are multiplied and added in 128, which hold every number on the way.

    Holds a, Holds b in 64 bits → |a * b| ≤ 2 ^ 126                          (abs_mul_le)
    and 0 ≤ b → |a * b| < 2 ^ 126                                            (abs_mul_lt)
    |n| < 2 ^ 127 → int128.narrow? n = some n                                (narrow?_int128)
    1 ≤ m → int64.Holds (n * m) → int64.Holds n                              (holds_of_holds_mul)
-/

namespace Stave.Width

def int128 : Width :=
  ⟨-170141183460469231731687303715884105728, 170141183460469231731687303715884105727⟩

theorem abs_le_of_holds {n : Int} (h : int64.Holds n) : |n| ≤ 2 ^ 63 := by
  obtain ⟨hlow, hhigh⟩ := h
  simp only [int64] at hlow hhigh
  exact abs_le.2 ⟨by omega, by omega⟩

theorem abs_mul_le {a b : Int} (ha : int64.Holds a) (hb : int64.Holds b) : |a * b| ≤ 2 ^ 126 := by
  rw [abs_mul]
  exact mul_le_mul (abs_le_of_holds ha) (abs_le_of_holds hb) (abs_nonneg b) (by decide)

/-- One factor without a sign leaves room for a sum of two such products. -/
theorem abs_mul_lt {a b : Int} (ha : int64.Holds a) (hb : int64.Holds b) (hpos : 0 ≤ b) :
    |a * b| < 2 ^ 126 := by
  have hb' : |b| ≤ 2 ^ 63 - 1 := by
    rw [abs_of_nonneg hpos]
    exact hb.2
  rw [abs_mul]
  refine lt_of_le_of_lt (mul_le_mul (abs_le_of_holds ha) hb' (abs_nonneg b) (by decide)) (by decide)

theorem holds_int128 {n : Int} (h : |n| < 2 ^ 127) : int128.Holds n := by
  obtain ⟨hlow, hhigh⟩ := abs_lt.1 h
  simp only [Holds, int128]
  omega

theorem narrow?_int128 {n : Int} (h : |n| < 2 ^ 127) : int128.narrow? n = some n :=
  narrow?_of_holds (holds_int128 h)

theorem holds_of_holds_mul {n m : Int} (hm : 1 ≤ m) (h : int64.Holds (n * m)) : int64.Holds n := by
  simp only [Holds, int64] at h ⊢
  rcases Int.lt_or_le n 0 with hneg | hpos
  · have hless : n * m ≤ n * 1 := Int.mul_le_mul_of_nonpos_left (by omega) hm
    omega
  · have hmore : n * 1 ≤ n * m := Int.mul_le_mul_of_nonneg_left hm hpos
    omega

end Stave.Width
