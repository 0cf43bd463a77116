import Stave.Proofs.Ratio
import Stave.Proofs.Width

/-!
# Arithmetic in 128 bits

The parts of a result are multiplied out, divided by their greatest common divisor, which a loop of
remainders finds, and only then brought back to 64 bits.  So a result is refused exactly when the
rational result in lowest terms has a part that 64 bits do not hold; 128 bits hold every number on
the way, from any two ratios and from any two numbers of 64 bits.

    ofRat? x = some q ↔ q.toRat = x                                    (ofRat?_eq_some_iff)
    Euclid a b (a.gcd b)                                               (euclid_gcd)
    Reduces n d r ↔ r = (ofQuotient? n d).map parts                    (reduces_iff)
    op.Runs a b r ↔ r = (op.result? a b).map parts                     (Operation.runs_iff)
    op.result? a b = (op.value? a.toRat b.toRat).bind ofRat?           (Operation.result?_eq)
    compare a b = compare a.toRat b.toRat                              (compare_toRat)
    all of these                                                       (arithmetic_exact)
-/

namespace Stave.Ratio

/-! ## What can be held -/

/-- The ratio equal to a rational number, if 64 bits hold its parts in lowest terms. -/
def ofRat? (x : ℚ) : Option Ratio :=
  if h : Width.int64.Holds x.num ∧ Width.int64.Holds x.den then
    some ⟨x.num, x.den, x.den_pos, x.reduced, h.1, h.2⟩
  else none

theorem ofRat?_eq_some_iff {x : ℚ} {q : Ratio} : ofRat? x = some q ↔ q.toRat = x := by
  unfold ofRat?
  constructor
  · intro h
    split at h
    · cases h
      rfl
    · cases h
  · rintro rfl
    exact dif_pos ⟨q.num_holds, q.den_holds⟩

theorem eq_ofRat? {x : ℚ} {result : Option Ratio} (h : ∀ q, result = some q ↔ q.toRat = x) :
    result = ofRat? x := by
  ext q
  exact (h q).trans ofRat?_eq_some_iff.symm

/-! ## The loop -/

/-- A run of the loop that takes `(a, b)` to `(b, a mod b)` while `b` is not zero, in 128 bits; it
ends with the `a` of the last pair. -/
inductive Euclid : Int → Int → Int → Prop
  | stop (a : Int) : Euclid a 0 a
  | turn {a b g : Int} (hb : b ≠ 0) (held : Width.int128.Holds (a.tmod b))
      (rest : Euclid b (a.tmod b) g) : Euclid a b g

/-- The loop ends, and with the greatest common divisor. -/
theorem euclid_gcd (a b : Nat) (hb : Width.int128.Holds b) : Euclid a b (a.gcd b) := by
  induction b using Nat.strongRecOn generalizing a with
  | ind b ih =>
    rcases Nat.eq_zero_or_pos b with rfl | hpos
    · rw [Nat.gcd_zero_right]
      exact .stop _
    · have hlt : a % b < b := Nat.mod_lt a hpos
      have hheld : Width.int128.Holds (a % b : Nat) := by
        simp only [Width.Holds, Width.int128] at hb ⊢
        omega
      have hgcd : a.gcd b = b.gcd (a % b) := by rw [Nat.gcd_comm, Nat.gcd_rec, Nat.gcd_comm]
      rw [hgcd]
      exact .turn (by omega) hheld (ih (a % b) hlt b hheld)

theorem Euclid.unique {a b g g' : Int} (h : Euclid a b g) (h' : Euclid a b g') : g = g' := by
  induction h with
  | stop a =>
    cases h' with
    | stop => rfl
    | turn hb => exact absurd rfl hb
  | turn hb _ _ ih =>
    cases h' with
    | stop => exact absurd rfl hb
    | turn _ _ rest => exact ih rest

/-! ## Reduction -/

/-- The parts of a ratio, as they are stored. -/
def parts (q : Ratio) : Int × Int := (q.num, q.den)

/-- Both parts over their divisor, each brought to 64 bits. -/
def narrowed? (n d g : Int) : Option (Int × Int) := do
  return (← Width.int64.narrow? (n.tdiv g), ← Width.int64.narrow? (d.tdiv g))

/-- A run that reduces `n / d`: its sign goes to the numerator, and the answer is `none` for a zero
denominator or a part that 64 bits do not hold.  A number that 128 bits do not hold, or a loop that
does not end, would leave no run at all. -/
inductive Reduces (n d : Int) : Option (Int × Int) → Prop
  | zero (h : d = 0) : Reduces n d none
  | reduced {a b g n' d' : Int} (h : d ≠ 0) (ha : Width.int128.narrow? |n| = some a)
      (hb : Width.int128.narrow? |d| = some b) (loop : Euclid a b g) (hg : g ≠ 0)
      (hn : Width.int128.narrow? ((if d < 0 then -1 else 1) * n) = some n')
      (hd : Width.int128.narrow? ((if d < 0 then -1 else 1) * d) = some d') :
      Reduces n d (narrowed? n' d' g)

theorem sign_eq_ite {d : Int} (h : d ≠ 0) : (if d < 0 then -1 else 1) = d.sign := by
  split
  · next hneg => exact (Int.sign_eq_neg_one_of_neg hneg).symm
  · exact (Int.sign_eq_one_of_pos (by omega)).symm

theorem narrowed?_eq {n d : Int} (h : d ≠ 0) :
    narrowed? (d.sign * n) (d.sign * d) (n.natAbs.gcd d.natAbs) = (ofQuotient? n d).map parts := by
  have hnum : (d.sign * n).tdiv (n.natAbs.gcd d.natAbs) = lowestNum n d := rfl
  have hden : (d.sign * d).tdiv (n.natAbs.gcd d.natAbs) = lowestDen n d := by
    rw [Int.sign_mul_self_eq_natAbs, ← Int.ofNat_tdiv]
    rfl
  rw [narrowed?, hnum, hden, ofQuotient?, dif_neg h]
  by_cases hn : Width.int64.Holds (lowestNum n d)
  · rw [Width.narrow?_of_holds hn]
    by_cases hd : Width.int64.Holds (lowestDen n d)
    · rw [Width.narrow?_of_holds hd, dif_pos ⟨hn, hd⟩]
      rfl
    · rw [Width.narrow?, if_neg hd, dif_neg fun h => hd h.2]
      rfl
  · rw [Width.narrow?, if_neg hn, dif_neg fun h => hn h.1]
    rfl

/-- In 128 bits there is a run for every quotient, and only one. -/
theorem reduces_iff {n d : Int} (hn : |n| < 2 ^ 127) (hd : |d| < 2 ^ 127) {r : Option (Int × Int)} :
    Reduces n d r ↔ r = (ofQuotient? n d).map parts := by
  have hloop : Euclid |n| |d| (n.natAbs.gcd d.natAbs) := by
    rw [Int.abs_eq_natAbs, Int.abs_eq_natAbs]
    exact euclid_gcd _ _ (Int.abs_eq_natAbs d ▸ Width.holds_int128 (by rwa [abs_abs]))
  have habs : ∀ m : Int, |m| < 2 ^ 127 → Width.int128.narrow? |m| = some |m| := fun m hm =>
    Width.narrow?_int128 (by rwa [abs_abs])
  constructor
  · rintro (h | ⟨h, ha, hb, loop, -, hn', hd'⟩)
    · rw [h, ofQuotient?_zero]
      rfl
    · rw [sign_eq_ite h] at hn' hd'
      rw [habs n hn] at ha
      rw [habs d hd] at hb
      cases ha
      cases hb
      rw [(Width.narrow?_eq_some_iff.1 hn').1, (Width.narrow?_eq_some_iff.1 hd').1,
        loop.unique hloop, narrowed?_eq h]
  · rintro rfl
    by_cases h : d = 0
    · rw [h, ofQuotient?_zero]
      exact .zero rfl
    · have hsigned : ∀ m : Int, |m| < 2 ^ 127 → Width.int128.narrow? (d.sign * m) = some (d.sign * m) :=
        fun m hm => Width.narrow?_int128 (by rwa [abs_mul, Int.abs_sign_of_ne_zero h, one_mul])
      have hgcd : n.natAbs.gcd d.natAbs ≠ 0 := Nat.gcd_ne_zero_right (by omega)
      rw [← narrowed?_eq h]
      refine .reduced h (habs n hn) (habs d hd) hloop (by exact_mod_cast hgcd) ?_ ?_
      · rw [sign_eq_ite h]
        exact hsigned n hn
      · rw [sign_eq_ite h]
        exact hsigned d hd

/-! ## Operations -/

inductive Operation where
  | addition
  | subtraction
  | multiplication
  | division

namespace Operation

/-- The checked operation. -/
def result? : Operation → Ratio → Ratio → Option Ratio
  | addition => add?
  | subtraction => sub?
  | multiplication => mul?
  | division => div?

/-- The operation on rational numbers, which cannot be divided by zero. -/
def value? : Operation → ℚ → ℚ → Option ℚ
  | addition, x, y => some (x + y)
  | subtraction, x, y => some (x - y)
  | multiplication, x, y => some (x * y)
  | division, x, y => if y = 0 then none else some (x / y)

/-- The parts of the result before they are reduced, if 128 bits hold every number on the way. -/
def wide? : Operation → Ratio → Ratio → Option (Int × Int)
  | addition, a, b => do
    let left ← Width.int128.narrow? (a.num * b.den)
    let right ← Width.int128.narrow? (b.num * a.den)
    return (← Width.int128.narrow? (left + right), ← Width.int128.narrow? (a.den * b.den))
  | subtraction, a, b => do
    let left ← Width.int128.narrow? (a.num * b.den)
    let right ← Width.int128.narrow? (b.num * a.den)
    return (← Width.int128.narrow? (left - right), ← Width.int128.narrow? (a.den * b.den))
  | multiplication, a, b => do
    return (← Width.int128.narrow? (a.num * b.num), ← Width.int128.narrow? (a.den * b.den))
  | division, a, b => do
    return (← Width.int128.narrow? (a.num * b.den), ← Width.int128.narrow? (a.den * b.num))

/-- A run of an operation in 128 bits, to its answer. -/
def Runs (op : Operation) (a b : Ratio) (r : Option (Int × Int)) : Prop :=
  ∃ n d, op.wide? a b = some (n, d) ∧ Reduces n d r

variable {op : Operation} {a b : Ratio}

/-- A result is refused exactly when there is no rational result or 64 bits do not hold it. -/
theorem result?_eq (op : Operation) (a b : Ratio) :
    op.result? a b = (op.value? a.toRat b.toRat).bind ofRat? := by
  cases op with
  | addition => exact eq_ofRat? fun _ => add?_eq_some_iff
  | subtraction => exact eq_ofRat? fun _ => sub?_eq_some_iff
  | multiplication => exact eq_ofRat? fun _ => mul?_eq_some_iff
  | division =>
    rw [result?, value?]
    split
    · next hb =>
      rw [div?, (num_eq_zero_iff b).2 hb, mul_zero, ofQuotient?_zero]
      rfl
    · next hb => exact eq_ofRat? fun _ => div?_eq_some_iff hb

/-- The unreduced parts of a result leave one of 128 bits to spare. -/
theorem wide?_eq_some (op : Operation) (a b : Ratio) : ∃ n d, op.wide? a b = some (n, d) ∧
    |n| < 2 ^ 127 ∧ |d| < 2 ^ 127 ∧ op.result? a b = ofQuotient? n d := by
  have hcross : ∀ p q : Ratio, |p.num * q.den| < 2 ^ 126 := fun p q =>
    Width.abs_mul_lt p.num_holds q.den_holds (Int.natCast_nonneg _)
  have hdens : |(a.den : Int) * b.den| < 2 ^ 126 :=
    Width.abs_mul_lt a.den_holds b.den_holds (Int.natCast_nonneg _)
  have hnums : |a.num * b.num| ≤ 2 ^ 126 := Width.abs_mul_le a.num_holds b.num_holds
  have hab := hcross a b
  have hba := hcross b a
  have hab' : |(a.den : Int) * b.num| < 2 ^ 126 := mul_comm b.num (a.den : Int) ▸ hba
  have hroom : ∀ {n : Int}, |n| ≤ 2 ^ 126 → |n| < 2 ^ 127 := fun h => lt_of_le_of_lt h (by decide)
  have hnarrow : ∀ {n : Int}, |n| ≤ 2 ^ 126 → Width.int128.narrow? n = some n := fun h =>
    Width.narrow?_int128 (hroom h)
  cases op with
  | addition =>
    have hsum : |a.num * b.den + b.num * a.den| < 2 ^ 127 :=
      lt_of_le_of_lt (abs_add_le _ _) (lt_of_lt_of_le (add_lt_add hab hba) (by decide))
    refine ⟨_, _, ?_, hsum, hroom hdens.le, rfl⟩
    rw [wide?, hnarrow hab.le, hnarrow hba.le, hnarrow hdens.le]
    simp only [Option.bind_eq_bind, Option.bind_some, Width.narrow?_int128 hsum]
    rfl
  | subtraction =>
    have hdifference : |a.num * b.den - b.num * a.den| < 2 ^ 127 :=
      lt_of_le_of_lt (abs_sub _ _) (lt_of_lt_of_le (add_lt_add hab hba) (by decide))
    refine ⟨_, _, ?_, hdifference, hroom hdens.le, rfl⟩
    rw [wide?, hnarrow hab.le, hnarrow hba.le, hnarrow hdens.le]
    simp only [Option.bind_eq_bind, Option.bind_some, Width.narrow?_int128 hdifference]
    rfl
  | multiplication =>
    refine ⟨_, _, ?_, hroom hnums, hroom hdens.le, rfl⟩
    rw [wide?, hnarrow hnums, hnarrow hdens.le]
    rfl
  | division =>
    refine ⟨_, _, ?_, hroom hab.le, hroom hab'.le, rfl⟩
    rw [wide?, hnarrow hab.le, hnarrow hab'.le]
    rfl

theorem runs_iff {r : Option (Int × Int)} : op.Runs a b r ↔ r = (op.result? a b).map parts := by
  obtain ⟨n, d, hwide, hn, hd, hresult⟩ := op.wide?_eq_some a b
  rw [hresult, ← reduces_iff hn hd]
  constructor
  · rintro ⟨n', d', hwide', hreduces⟩
    rw [hwide] at hwide'
    cases hwide'
    exact hreduces
  · exact fun hreduces => ⟨n, d, hwide, hreduces⟩

end Operation

/-! ## Order -/

theorem toRat_lt_toRat {a b : Ratio} : a.toRat < b.toRat ↔ a.num * b.den < b.num * a.den := by
  rw [← not_le, toRat_le_toRat]
  exact Int.not_le

/-- The order of cross products, which 128 bits hold, is that of the rational numbers. -/
theorem compare_toRat (a b : Ratio) : compare a b = compare a.toRat b.toRat := by
  show compare (a.num * b.den) (b.num * a.den) = _
  rcases lt_trichotomy a.toRat b.toRat with h | h | h
  · rw [compare_lt_iff_lt.2 h, compare_lt_iff_lt.2 (toRat_lt_toRat.1 h)]
  · rw [toRat_injective h, compare_eq_iff_eq.2 rfl, compare_eq_iff_eq.2 rfl]
  · rw [compare_gt_iff_gt.2 h, compare_gt_iff_gt.2 (toRat_lt_toRat.1 h)]

theorem compare_eq_iff {a b : Ratio} : compare a b = .eq ↔ a = b := by
  rw [compare_toRat, compare_eq_iff_eq, toRat_injective.eq_iff]

/-- The comparison of the cross products, if 128 bits hold them. -/
def wideCompare? (a b : Ratio) : Option Ordering := do
  return compare (← Width.int128.narrow? (a.num * b.den)) (← Width.int128.narrow? (b.num * a.den))

theorem wideCompare?_eq (a b : Ratio) : wideCompare? a b = some (compare a b) := by
  have hcross : ∀ p q : Ratio, Width.int128.narrow? (p.num * q.den) = some (p.num * q.den) :=
    fun p q => Width.narrow?_int128
      ((Width.abs_mul_lt p.num_holds q.den_holds (Int.natCast_nonneg _)).trans (by decide))
  rw [wideCompare?, hcross, hcross]
  rfl

/-! ## The whole arithmetic -/

/-- Each operation gives the rational result in lowest terms if there is one and 64 bits hold its
parts, and nothing otherwise; so does the quotient of any two numbers.  The answers are those of
the runs in 128 bits, of which there is always one.  The order is that of the rational numbers, and
ratios are equal in it only if they are the same. -/
theorem arithmetic_exact :
    (∀ (op : Operation) (a b : Ratio),
      op.result? a b = (op.value? a.toRat b.toRat).bind ofRat? ∧
        ∀ r, op.Runs a b r ↔ r = (op.result? a b).map parts) ∧
    (∀ n d : Int, Width.int64.Holds n → Width.int64.Holds d →
      ofQuotient? n d = (if d = 0 then none else ofRat? (n / d)) ∧
        ∀ r, Reduces n d r ↔ r = (ofQuotient? n d).map parts) ∧
    ∀ a b : Ratio, compare a b = compare a.toRat b.toRat ∧ (compare a b = .eq ↔ a = b) ∧
      wideCompare? a b = some (compare a b) := by
  refine ⟨fun op a b => ⟨op.result?_eq a b, fun r => Operation.runs_iff⟩, fun n d hn hd => ⟨?_, ?_⟩,
    fun a b => ⟨compare_toRat a b, compare_eq_iff, wideCompare?_eq a b⟩⟩
  · split
    · next h => rw [h, ofQuotient?_zero]
    · next h => exact eq_ofRat? fun q => ofQuotient?_eq_some_iff h
  · have hroom : ∀ {m : Int}, Width.int64.Holds m → |m| < 2 ^ 127 := fun h =>
      lt_of_le_of_lt (Width.abs_le_of_holds h) (by decide)
    exact fun r => reduces_iff (hroom hn) (hroom hd)

/-- The least number over minus one is refused, over minus two it is reduced first; a third of the
greatest number times what is left of it is one. -/
theorem arithmetic_exact_limits :
    Reduces (-9223372036854775808) (-1) none ∧
    Reduces (-9223372036854775808) (-2) (some (4611686018427387904, 1)) ∧
    Operation.multiplication.Runs ⟨9223372036854775807, 3, by decide, by decide, by decide, by decide⟩
      ⟨3, 9223372036854775807, by decide, by decide, by decide, by decide⟩ (some (1, 1)) := by
  obtain ⟨hoperation, hquotient, -⟩ := arithmetic_exact
  have hleast : Width.int64.Holds (-9223372036854775808) := by decide
  refine ⟨?_, ?_, ?_⟩
  · exact ((hquotient _ (-1) hleast (by decide)).2 none).2 (by decide +kernel)
  · exact ((hquotient _ (-2) hleast (by decide)).2 _).2 (by decide +kernel)
  · exact ((hoperation _ _ _).2 _).2 (by decide +kernel)

end Stave.Ratio
