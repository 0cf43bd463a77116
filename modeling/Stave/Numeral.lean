import Stave.Width

/-!
# Numerals: integers as decimal text

Digits are the ten ASCII ones.  A signed numeral is an optional sign, `+` or `-`, before at least
one digit; leading zeros are allowed.

    natural? (Nat.toDigits 10 n) = some n                      (natural?_toDigits)
    w.Holds n → integer? w (toString n).toList = some n        (integer?_toString)
-/

namespace Stave.Numeral

/-- The value of a non-empty run of digits. -/
def natural? (cs : List Char) : Option Nat :=
  if cs ≠ [] ∧ cs.all Char.isDigit then some (Nat.ofDigitChars 10 cs 0) else none

/-- An optionally signed numeral whose value a width holds. -/
def integer? (w : Width) : List Char → Option Int
  | '-' :: cs => natural? cs >>= fun n => w.narrow? (-n)
  | '+' :: cs => natural? cs >>= fun n => w.narrow? n
  | cs => natural? cs >>= fun n => w.narrow? n

/-! ## Lemmas -/

theorem holds_of_integer? {w : Width} {cs : List Char} {n : Int} (h : integer? w cs = some n) :
    w.Holds n := by
  unfold integer? at h
  split at h <;>
  · obtain ⟨m, -, hm⟩ := Option.bind_eq_some_iff.1 h
    obtain ⟨rfl, hw⟩ := Width.narrow?_eq_some_iff.1 hm
    exact hw

theorem natural?_toDigits (n : Nat) : natural? (Nat.toDigits 10 n) = some n := by
  have h : (Nat.toDigits 10 n).all Char.isDigit = true :=
    List.all_eq_true.2 fun _ hc => Nat.isDigit_of_mem_toDigits (by decide) (by decide) hc
  simp [natural?, h, Nat.toDigits_ne_nil, Nat.ofDigitChars_ten_toDigits]

/-- A numeral without a sign is read as the natural number it spells. -/
theorem integer?_of_head_isDigit (w : Width) {c : Char} {cs : List Char} (hc : c.isDigit = true) :
    integer? w (c :: cs) = natural? (c :: cs) >>= fun n => w.narrow? n := by
  unfold integer?
  split
  · next h => cases h; simp at hc
  · next h => cases h; simp at hc
  · rfl

theorem integer?_toDigits (w : Width) (n : Nat) (h : w.Holds n) :
    integer? w (Nat.toDigits 10 n) = some (n : Int) := by
  cases hd : Nat.toDigits 10 n with
  | nil => exact absurd hd Nat.toDigits_ne_nil
  | cons c cs =>
    have hc : c.isDigit = true :=
      Nat.isDigit_of_mem_toDigits (b := 10) (n := n) (by decide) (by decide) (by simp [hd])
    rw [integer?_of_head_isDigit w hc, ← hd, natural?_toDigits]
    exact Width.narrow?_of_holds h

/-- A numeral as it is printed: a minus sign where it is needed, then the digits. -/
theorem toList_toString (n : Int) :
    (toString n).toList = (if n < 0 then ['-'] else []) ++ Nat.toDigits 10 n.natAbs := by
  cases n with
  | ofNat n =>
    simp [toString, Int.repr]
  | negSucc n =>
    have hn : Int.negSucc n < 0 := Int.negSucc_lt_zero n
    simp [toString, Int.repr, hn]

theorem integer?_toString (w : Width) (n : Int) (h : w.Holds n) :
    integer? w (toString n).toList = some n := by
  rw [toList_toString]
  split
  · show natural? (Nat.toDigits 10 n.natAbs) >>= (fun n => w.narrow? (-n)) = _
    rw [natural?_toDigits]
    have e : -(n.natAbs : Int) = n := by omega
    show w.narrow? (-(n.natAbs : Int)) = some n
    rw [e]
    exact Width.narrow?_of_holds h
  · have e : (n.natAbs : Int) = n := by omega
    rw [List.nil_append, integer?_toDigits w n.natAbs (by rw [e]; exact h), e]

end Stave.Numeral
