/-!
# Widths: the integers a stored field can hold

Pitches, degrees and the parts of a ratio are kept in 64 signed bits, octaves in 32, velocities
in 8 unsigned ones.  Arithmetic here is done on unbounded integers and brought back to a width
at the end, in one of three ways: refuse (`narrow?`), clamp, or wrap around.

    w.narrow? n = some m ↔ m = n ∧ w.Holds n           (narrow?_eq_some_iff)
    w.Holds n → w.clamp n = n                          (clamp_of_holds)
    w.Holds n → w.wrap n = n                           (wrap_of_holds)
    w.least ≤ w.most → w.Holds (w.wrap n)              (holds_wrap)
-/

namespace Stave

/-- An interval of integers, both ends included. -/
structure Width where
  least : Int
  most : Int

namespace Width

def int64 : Width := ⟨-9223372036854775808, 9223372036854775807⟩
def int32 : Width := ⟨-2147483648, 2147483647⟩
def nat64 : Width := ⟨0, 18446744073709551615⟩
def nat32 : Width := ⟨0, 4294967295⟩
def nat8 : Width := ⟨0, 255⟩

def Holds (w : Width) (n : Int) : Prop := w.least ≤ n ∧ n ≤ w.most

instance (w : Width) (n : Int) : Decidable (w.Holds n) := inferInstanceAs (Decidable (_ ∧ _))

/-- The number itself, refused outside the width. -/
def narrow? (w : Width) (n : Int) : Option Int := if w.Holds n then some n else none

/-- The nearest number of the width. -/
def clamp (w : Width) (n : Int) : Int := max w.least (min n w.most)

/-- The number of the width that differs by a multiple of the width's size. -/
def wrap (w : Width) (n : Int) : Int := w.least + (n - w.least) % (w.most - w.least + 1)

/-! ## Lemmas -/

theorem narrow?_eq_some_iff {w : Width} {n m : Int} :
    w.narrow? n = some m ↔ m = n ∧ w.Holds n := by
  unfold narrow?
  split
  · simp [*, eq_comm]
  · simp [*]

theorem narrow?_of_holds {w : Width} {n : Int} (h : w.Holds n) : w.narrow? n = some n :=
  narrow?_eq_some_iff.2 ⟨rfl, h⟩

theorem clamp_of_holds {w : Width} {n : Int} (h : w.Holds n) : w.clamp n = n := by
  obtain ⟨h1, h2⟩ := h
  unfold clamp
  omega

theorem holds_clamp {w : Width} (h : w.least ≤ w.most) (n : Int) : w.Holds (w.clamp n) := by
  unfold Holds clamp
  omega

theorem clamp_eq_self_iff {n : Int} : int64.clamp n = n ↔ int64.Holds n :=
  ⟨fun h => h ▸ holds_clamp (by decide) n, clamp_of_holds⟩

/-- A number is reached over a clamped distance if the distance was not clamped. -/
theorem add_clamp_sub_eq_iff {a n : Int} : a + int64.clamp (n - a) = n ↔ int64.Holds (n - a) := by
  rw [← clamp_eq_self_iff]
  omega

theorem wrap_of_holds {w : Width} {n : Int} (h : w.Holds n) : w.wrap n = n := by
  obtain ⟨h1, h2⟩ := h
  unfold wrap
  rw [Int.emod_eq_of_lt (by omega) (by omega)]
  omega

theorem holds_wrap {w : Width} (h : w.least ≤ w.most) (n : Int) : w.Holds (w.wrap n) := by
  have hsize : 0 < w.most - w.least + 1 := by omega
  have hlow := Int.emod_nonneg (n - w.least) (Int.ne_of_gt hsize)
  have hhigh := Int.emod_lt_of_pos (n - w.least) hsize
  unfold Holds wrap
  omega

end Width

end Stave
