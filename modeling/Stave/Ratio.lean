import Stave.Width

/-!
# Ratios: exact durations and offsets

A `Ratio` is a fraction in lowest terms with a positive denominator, both parts held in 64 bits,
so two ratios are equal as values exactly when they are equal as numbers.  Every operation works
on unbounded integers, reduces, and only then asks whether the result can be held: the ones named
with `?` answer `none` when it cannot, the others name the operation that failed.
-/

namespace Stave

/-- A reduced fraction whose parts fit 64 bits. -/
structure Ratio where
  num : Int
  den : Nat
  den_pos : 0 < den
  reduced : num.natAbs.Coprime den
  num_holds : Width.int64.Holds num
  den_holds : Width.int64.Holds den
deriving DecidableEq

/-- An operation on ratios whose result is no ratio. -/
inductive RatioFault where
  | denominator
  | addition
  | subtraction
  | multiplication
  | division
deriving DecidableEq

def RatioFault.message : RatioFault → String
  | .denominator => "Denominator cannot be zero"
  | .addition => "Fraction addition overflowed"
  | .subtraction => "Fraction subtraction overflowed"
  | .multiplication => "Fraction multiplication overflowed"
  | .division => "Fraction division by zero or overflow"

namespace Ratio

/-! ## Reduction -/

/-- Numerator of `n / d` in lowest terms. -/
def lowestNum (n d : Int) : Int := (d.sign * n).tdiv (n.natAbs.gcd d.natAbs)

/-- Denominator of `n / d` in lowest terms. -/
def lowestDen (n d : Int) : Nat := d.natAbs / n.natAbs.gcd d.natAbs

theorem natAbs_lowestNum {n d : Int} (h : d ≠ 0) :
    (lowestNum n d).natAbs = n.natAbs / n.natAbs.gcd d.natAbs := by
  rw [lowestNum, Int.natAbs_tdiv, Int.natAbs_mul, Int.natAbs_sign_of_ne_zero h, Nat.one_mul]
  rfl

theorem lowestDen_pos {n d : Int} (h : d ≠ 0) : 0 < lowestDen n d :=
  Nat.div_pos (Nat.gcd_le_right _ (by omega)) (Nat.gcd_pos_of_pos_right _ (by omega))

theorem lowest_coprime {n d : Int} (h : d ≠ 0) :
    (lowestNum n d).natAbs.Coprime (lowestDen n d) := by
  rw [natAbs_lowestNum h]
  exact Nat.coprime_div_gcd_div_gcd (Nat.gcd_pos_of_pos_right _ (by omega))

/-- The ratio equal to `n / d`, if `d` is not zero and the reduced parts can be held. -/
def ofQuotient? (n d : Int) : Option Ratio :=
  if hd : d = 0 then none
  else if h : Width.int64.Holds (lowestNum n d) ∧ Width.int64.Holds (lowestDen n d) then
    some ⟨lowestNum n d, lowestDen n d, lowestDen_pos hd, lowest_coprime hd, h.1, h.2⟩
  else none

def ofInt (n : Int) (h : Width.int64.Holds n) : Ratio :=
  ⟨n, 1, by decide, Nat.coprime_one_right _, h, by decide⟩

def ofInt? (n : Int) : Option Ratio := if h : Width.int64.Holds n then some (ofInt n h) else none

instance : Zero Ratio := ⟨ofInt 0 (by decide)⟩
instance : One Ratio := ⟨ofInt 1 (by decide)⟩
instance : Inhabited Ratio := ⟨0⟩

/-! ## Arithmetic -/

def add? (a b : Ratio) : Option Ratio := ofQuotient? (a.num * b.den + b.num * a.den) (a.den * b.den)
def sub? (a b : Ratio) : Option Ratio := ofQuotient? (a.num * b.den - b.num * a.den) (a.den * b.den)
def mul? (a b : Ratio) : Option Ratio := ofQuotient? (a.num * b.num) (a.den * b.den)

/-- Division, also refused when the divisor is zero. -/
def div? (a b : Ratio) : Option Ratio := ofQuotient? (a.num * b.den) (a.den * b.num)

/-- The value of an optional result, or the fault to blame for its absence. -/
def orFault (fault : RatioFault) : Option Ratio → Except RatioFault Ratio
  | some q => .ok q
  | none => .error fault

def ofQuotient (n d : Int) : Except RatioFault Ratio := orFault .denominator (ofQuotient? n d)
def add (a b : Ratio) : Except RatioFault Ratio := orFault .addition (a.add? b)
def sub (a b : Ratio) : Except RatioFault Ratio := orFault .subtraction (a.sub? b)
def mul (a b : Ratio) : Except RatioFault Ratio := orFault .multiplication (a.mul? b)
def div (a b : Ratio) : Except RatioFault Ratio := orFault .division (a.div? b)

def reciprocal (q : Ratio) : Except RatioFault Ratio := ofQuotient q.den q.num
def abs (q : Ratio) : Except RatioFault Ratio := ofQuotient q.num.natAbs q.den

/-- The sum from the left, `none` as soon as a partial sum cannot be held. -/
def sum? (qs : List Ratio) : Option Ratio := qs.foldlM add? 0

/-- The sum from the left, or the fault of the first partial sum that cannot be held. -/
def sum (qs : List Ratio) : Except RatioFault Ratio := qs.foldlM add 0

/-- The greatest integer not above the ratio. -/
def floor (q : Ratio) : Int := q.num / q.den

/-- The least integer not below the ratio. -/
def ceil (q : Ratio) : Int := -(-q.num / q.den)

def isZero (q : Ratio) : Bool := q.num == 0
def isNegative (q : Ratio) : Bool := q.num < 0
def isInteger (q : Ratio) : Bool := q.den == 1

/-- The quotient of the two parts, each rounded to a float first. -/
def toFloat (q : Ratio) : Float := Float.ofInt q.num / Float.ofNat q.den

/-! ## Order -/

instance : LE Ratio := ⟨fun a b => a.num * b.den ≤ b.num * a.den⟩
instance : LT Ratio := ⟨fun a b => a.num * b.den < b.num * a.den⟩
instance (a b : Ratio) : Decidable (a ≤ b) := inferInstanceAs (Decidable (_ ≤ (_ : Int)))
instance (a b : Ratio) : Decidable (a < b) := inferInstanceAs (Decidable (_ < (_ : Int)))

instance : Ord Ratio := ⟨fun a b => compare (a.num * b.den) (b.num * a.den)⟩
instance : Max Ratio := maxOfLe
instance : Min Ratio := minOfLe

/-! ## Lemmas -/

theorem ext {a b : Ratio} (hn : a.num = b.num) (hd : a.den = b.den) : a = b := by
  cases a
  cases b
  cases hn
  cases hd
  rfl

theorem floor_holds (q : Ratio) : Width.int64.Holds q.floor := by
  have h := q.num_holds
  have hd : (0 : Int) < q.den := by have := q.den_pos; omega
  have h1 : q.floor * q.den ≤ q.num := Int.ediv_mul_le _ (by omega)
  have h2 : q.num < q.floor * q.den + q.den := Int.lt_ediv_add_one_mul_self _ hd |> fun h => by
    rw [Int.add_mul, Int.one_mul] at h
    exact h
  simp only [Width.Holds, Width.int64] at h ⊢
  constructor
  · rcases Int.lt_or_le q.floor 0 with hf | hf
    · have : (q.floor + 1) * q.den ≤ (q.floor + 1) * 1 :=
        Int.mul_le_mul_of_nonpos_left (by omega) (by omega)
      rw [Int.add_mul] at this
      omega
    · omega
  · rcases Int.lt_or_le q.floor 0 with hf | hf
    · omega
    · have : q.floor * 1 ≤ q.floor * q.den := Int.mul_le_mul_of_nonneg_left (by omega) hf
      omega

/-- The integer part, as a ratio. -/
def floorRatio (q : Ratio) : Ratio := ofInt q.floor q.floor_holds

end Ratio

end Stave
