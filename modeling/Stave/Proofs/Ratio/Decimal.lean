import Mathlib.Data.List.TakeWhile
import Mathlib.Data.Option.Basic
import Stave.Proofs.Numeral
import Stave.Proofs.Ratio
import Stave.Ratio.Text
import Stave.Text.Offset

/-!
# Decimal literals are read exactly

A text is read as a ratio exactly if it is a decimal literal of at most 18 places, with a whole part
and a number in units of its last place that 64 bits hold.  The ratio is the number that the literal
spells.  The 64-bit steps of the reading overflow on no literal but those refused.

    ofDecimal? cs = some q ↔ ∃ d, d.text = cs ∧ d.Fits ∧ q.toRat = d.value
                                                                    (ofDecimal?_eq_some_iff)
    d.Fits → ∃ q, ofDecimal? d.text = some q                        (Fits.exists_ratio)
    ¬ d.Fits → ofDecimal? d.text = none                             (ofDecimal?_of_not_fits)
    byteLength cs < 2 ^ 32 → steps? cs = ofDecimal? cs              (steps?_eq)
-/

namespace Stave

open Stave.Text

/-- A decimal literal: digits, perhaps a minus sign before them, and perhaps a point after them with
more digits, or none, behind it. -/
structure Decimal where
  negative : Bool
  whole : List Char
  places : Option (List Char)
  whole_ne_nil : whole ≠ []
  whole_isDigit : ∀ c ∈ whole, c.isDigit = true
  places_isDigit : ∀ ds ∈ places, ∀ c ∈ ds, c.isDigit = true

namespace Decimal

def signText (negative : Bool) : List Char := if negative then ['-'] else []

def placesText : Option (List Char) → List Char
  | none => []
  | some ds => '.' :: ds

def text (d : Decimal) : List Char := signText d.negative ++ (d.whole ++ placesText d.places)

/-- The digits after the point. -/
def fraction (d : Decimal) : List Char := d.places.getD []

def wholeValue (d : Decimal) : Nat := Nat.ofDigitChars 10 d.whole 0

def fractionValue (d : Decimal) : Nat := Nat.ofDigitChars 10 d.fraction 0

/-- What a decimal of so many places is counted in. -/
def unit (d : Decimal) : Nat := 10 ^ d.fraction.length

/-- The number that a literal spells. -/
def value (d : Decimal) : ℚ :=
  (if d.negative then -1 else 1) * (d.wholeValue + d.fractionValue / d.unit)

/-- The number in units, without its sign. -/
def scaled (d : Decimal) : Nat := d.wholeValue * d.unit + d.fractionValue

/-- At most 18 places, and a whole part and a number in units that 64 bits hold. -/
structure Fits (d : Decimal) : Prop where
  places : d.fraction.length ≤ 18
  whole : d.wholeValue ≤ Width.int64.most
  scaled : d.scaled ≤ Width.int64.most

end Decimal

namespace Ratio

/-! ## After the sign -/

/-- A literal whose sign has been read. -/
def afterSign? (negative : Bool) (digits : List Char) : Option Ratio := do
  let (whole, rest) := digits.span (· ≠ '.')
  let places := rest.drop 1
  guard (places.all Char.isDigit && places.length ≤ maxPlaces)
  let w ← Numeral.natural? whole
  let unit := Nat.pow 10 places.length
  let n ← Width.int64.narrow? (w * unit + Nat.ofDigitChars 10 places 0 : Nat)
  ofQuotient? (if negative then -n else n) unit

theorem ofDecimal?_minus (digits : List Char) :
    ofDecimal? ('-' :: digits) = afterSign? true digits := rfl

theorem ofDecimal?_plain {cs : List Char} (h : cs.head? ≠ some '-') :
    ofDecimal? cs = afterSign? false cs := by
  cases cs with
  | nil => rfl
  | cons c cs =>
    have hc : c ≠ '-' := fun hc => h (congrArg some hc)
    unfold ofDecimal?
    split
    next negative digits hmatch =>
      split at hmatch
      · next r hr => exact absurd (List.cons.inj hr).1 hc
      · cases hmatch
        rfl

theorem span_before {cs : List Char} {mark : Char} (h : ∀ c ∈ cs, c ≠ mark) (rest : List Char) :
    (cs ++ mark :: rest).span (· ≠ mark) = (cs, mark :: rest) := by
  have hp : ∀ c ∈ cs, decide (c ≠ mark) = true := fun c hc => decide_eq_true (h c hc)
  rw [List.span_eq_takeWhile_dropWhile, List.takeWhile_append_of_pos hp,
    List.dropWhile_append_of_pos hp]
  simp

theorem span_without {cs : List Char} {mark : Char} (h : ∀ c ∈ cs, c ≠ mark) :
    cs.span (· ≠ mark) = (cs, []) := by
  have hp : ∀ c ∈ cs, decide (c ≠ mark) = true := fun c hc => decide_eq_true (h c hc)
  rw [List.span_eq_takeWhile_dropWhile, List.takeWhile_eq_self_iff.2 hp,
    List.dropWhile_eq_nil_iff.2 hp]

theorem span_decimal (d : Decimal) :
    (d.whole ++ Decimal.placesText d.places).span (· ≠ '.') =
      (d.whole, Decimal.placesText d.places) := by
  have hwhole : ∀ c ∈ d.whole, c ≠ '.' := fun c hc => ne_of_isDigit (d.whole_isDigit c hc) rfl
  cases d.places with
  | none =>
    rw [Decimal.placesText, List.append_nil]
    exact span_without hwhole
  | some ds => exact span_before hwhole ds

theorem drop_placesText (d : Decimal) : (Decimal.placesText d.places).drop 1 = d.fraction := by
  rw [Decimal.fraction]
  cases d.places <;> rfl

theorem fraction_isDigit (d : Decimal) : d.fraction.all Char.isDigit = true := by
  have hplaces := d.places_isDigit
  rw [Decimal.fraction]
  cases h : d.places with
  | none => rfl
  | some ds => exact List.all_eq_true.2 (hplaces ds h)

theorem natural?_whole (d : Decimal) : Numeral.natural? d.whole = some d.wholeValue :=
  if_pos ⟨d.whole_ne_nil, List.all_eq_true.2 d.whole_isDigit⟩

/-- The digits of a literal without its point are those of its scaled number. -/
theorem afterSign?_decimal (d : Decimal) :
    afterSign? d.negative (d.whole ++ Decimal.placesText d.places) =
      if d.fraction.length ≤ 18 then
        (Width.int64.narrow? d.scaled).bind fun n =>
          ofQuotient? (if d.negative then -n else n) d.unit
      else none := by
  rw [afterSign?, span_decimal]
  dsimp only
  rw [drop_placesText, fraction_isDigit, natural?_whole]
  by_cases h : d.fraction.length ≤ 18
  · have hguard : (true && decide (d.fraction.length ≤ maxPlaces)) = true := decide_eq_true h
    rw [if_pos h, hguard]
    rfl
  · have hguard : (true && decide (d.fraction.length ≤ maxPlaces)) = false := decide_eq_false h
    rw [if_neg h, hguard]
    rfl

/-- What is read without its sign is a literal. -/
theorem exists_decimal {negative : Bool} {digits : List Char} {q : Ratio}
    (h : afterSign? negative digits = some q) :
    ∃ d : Decimal, d.negative = negative ∧ d.whole ++ Decimal.placesText d.places = digits := by
  rw [afterSign?, List.span_eq_takeWhile_dropWhile] at h
  obtain ⟨_, hguard, h⟩ := Option.bind_eq_some_iff.1 h
  obtain ⟨w, hw, -⟩ := Option.bind_eq_some_iff.1 h
  obtain ⟨⟨hne, hwhole⟩, -⟩ := Option.ite_none_right_eq_some.1 hw
  have hjoin := List.takeWhile_append_dropWhile (p := (· ≠ '.')) (l := digits)
  cases hrest : digits.dropWhile (· ≠ '.') with
  | nil =>
    refine ⟨⟨negative, _, none, hne, List.all_eq_true.1 hwhole, nofun⟩, rfl, ?_⟩
    rw [hrest] at hjoin
    exact hjoin
  | cons c ds =>
    have hstop := List.head?_dropWhile_not (fun c => decide (c ≠ '.')) digits
    rw [hrest] at hstop hjoin hguard
    have hc : c = '.' := not_not.1 (of_decide_eq_false hstop)
    have hplaces : (ds.all Char.isDigit && ds.length ≤ maxPlaces) = true := by
      by_contra hno
      rw [guard, List.drop_one, List.tail_cons, if_neg hno] at hguard
      cases hguard
    have hds := List.all_eq_true.1 (Bool.and_eq_true_iff.1 hplaces).1
    refine ⟨⟨negative, _, some ds, hne, List.all_eq_true.1 hwhole, fun _ h => ?_⟩, rfl, ?_⟩
    · cases h
      exact hds
    · rw [hc] at hjoin
      exact hjoin

end Ratio

namespace Decimal

variable {d : Decimal}

theorem unit_pos (d : Decimal) : 0 < d.unit := Nat.pow_pos (by decide)

theorem wholeValue_le_scaled (d : Decimal) : d.wholeValue ≤ d.scaled :=
  (Nat.le_mul_of_pos_right _ d.unit_pos).trans (Nat.le_add_right _ _)

/-- The number in units, with its sign. -/
def numerator (d : Decimal) : Int := if d.negative then -d.scaled else d.scaled

theorem value_eq_div (d : Decimal) : d.value = d.numerator / d.unit := by
  have hunit : (d.unit : ℚ) ≠ 0 := by exact_mod_cast d.unit_pos.ne'
  rw [value, numerator, scaled]
  split
  · push_cast
    field_simp
  · push_cast
    field_simp

theorem head_text (d : Decimal) : d.text.head? = some '-' ↔ d.negative = true := by
  obtain ⟨c, whole, hwhole⟩ := List.exists_cons_of_ne_nil d.whole_ne_nil
  have hc : c ≠ '-' := ne_of_isDigit (d.whole_isDigit c (hwhole ▸ List.mem_cons_self)) rfl
  rw [text, hwhole]
  cases d.negative with
  | true => exact iff_of_true rfl rfl
  | false => exact iff_of_false (fun h => hc (Option.some.inj h)) Bool.false_ne_true

theorem ofDecimal?_text (d : Decimal) : Ratio.ofDecimal? d.text =
    Ratio.afterSign? d.negative (d.whole ++ placesText d.places) := by
  have hhead := d.head_text
  rw [text] at hhead ⊢
  cases hnegative : d.negative with
  | true => exact Ratio.ofDecimal?_minus _
  | false =>
    rw [hnegative] at hhead
    exact Ratio.ofDecimal?_plain fun h => Bool.false_ne_true (hhead.1 h)

theorem placesText_injective : Function.Injective placesText := by
  rintro (_ | ds) (_ | es) h
  · rfl
  · cases h
  · cases h
  · rw [(List.cons.inj h).2]

/-- A literal is spelt in one way only. -/
theorem text_injective : Function.Injective text := by
  intro a b h
  have hnegative : a.negative = b.negative := by
    rw [Bool.eq_iff_iff, ← a.head_text, h, b.head_text]
  have hrest : a.whole ++ placesText a.places = b.whole ++ placesText b.places := by
    rw [text, text, hnegative] at h
    exact List.append_cancel_left h
  have hspan := congrArg (List.span (· ≠ '.')) hrest
  rw [Ratio.span_decimal, Ratio.span_decimal, Prod.mk.injEq] at hspan
  obtain ⟨negative, whole, places, _, _, _⟩ := a
  obtain rfl : negative = b.negative := hnegative
  obtain rfl : whole = b.whole := hspan.1
  obtain rfl : places = b.places := placesText_injective hspan.2
  rfl

theorem Fits.ofDecimal?_text (h : d.Fits) :
    Ratio.ofDecimal? d.text = Ratio.ofQuotient? d.numerator d.unit := by
  have hscaled : Width.int64.Holds d.scaled :=
    ⟨Int.le_trans (by decide) (Int.natCast_nonneg _), h.scaled⟩
  rw [Decimal.ofDecimal?_text, Ratio.afterSign?_decimal, if_pos h.places,
    Width.narrow?_of_holds hscaled]
  rfl

theorem ofDecimal?_of_not_fits (h : ¬ d.Fits) : Ratio.ofDecimal? d.text = none := by
  rw [Decimal.ofDecimal?_text, Ratio.afterSign?_decimal]
  split
  · next hplaces =>
    have hwhole : (d.wholeValue : Int) ≤ d.scaled := by exact_mod_cast d.wholeValue_le_scaled
    have hscaled : ¬ Width.int64.Holds d.scaled := fun hheld =>
      h ⟨hplaces, hwhole.trans hheld.2, hheld.2⟩
    rw [Width.narrow?, if_neg hscaled]
    rfl
  · rfl

theorem Fits.exists_ratio (h : d.Fits) : ∃ q, Ratio.ofDecimal? d.text = some q := by
  have hunit : d.unit ≤ 10 ^ 18 := Nat.pow_le_pow_right (by decide) h.places
  have hscaled := h.scaled
  have hpos := d.unit_pos
  rw [h.ofDecimal?_text]
  refine Ratio.exists_ofQuotient? (by omega) ?_ ?_
  · rw [numerator]
    split <;> omega
  · simp only [Width.int64]
    omega

theorem ofDecimal?_text_eq_some_iff {q : Ratio} :
    Ratio.ofDecimal? d.text = some q ↔ d.Fits ∧ q.toRat = d.value := by
  by_cases h : d.Fits
  · have hunit : (d.unit : Int) ≠ 0 := by exact_mod_cast d.unit_pos.ne'
    rw [h.ofDecimal?_text, Ratio.ofQuotient?_eq_some_iff hunit, d.value_eq_div]
    exact (and_iff_right h).symm
  · rw [ofDecimal?_of_not_fits h]
    exact ⟨nofun, fun hread => absurd hread.1 h⟩

theorem ofDecimal?_text_eq_none_iff : Ratio.ofDecimal? d.text = none ↔ ¬ d.Fits := by
  refine ⟨fun h hfits => ?_, ofDecimal?_of_not_fits⟩
  obtain ⟨q, hq⟩ := hfits.exists_ratio
  rw [h] at hq
  cases hq

theorem scaled_of_places (h : d.places = none) : d.scaled = d.wholeValue := by
  rw [scaled, unit, fractionValue, fraction, h]
  exact Nat.mul_one _

/-- Without a point a literal is a numeral. -/
theorem integer?_text (h : d.places = none) (w : Width) :
    Numeral.integer? w d.text = w.narrow? d.numerator := by
  have hnatural := Ratio.natural?_whole d
  rw [text, h, placesText, List.append_nil, numerator, scaled_of_places h]
  cases d.negative with
  | true =>
    show (Numeral.natural? d.whole >>= fun n => w.narrow? (-n)) = _
    rw [hnatural]
    rfl
  | false =>
    obtain ⟨c, whole, hwhole⟩ := List.exists_cons_of_ne_nil d.whole_ne_nil
    have hc : c.isDigit = true := d.whole_isDigit c (hwhole ▸ List.mem_cons_self)
    show Numeral.integer? w d.whole = _
    rw [hwhole, Numeral.integer?_of_head_isDigit w hc, ← hwhole, hnatural]
    rfl

end Decimal

/-- A text is read exactly if it is a literal that fits, and then as the number it spells. -/
theorem Ratio.ofDecimal?_eq_some_iff {cs : List Char} {q : Ratio} :
    Ratio.ofDecimal? cs = some q ↔ ∃ d : Decimal, d.text = cs ∧ d.Fits ∧ q.toRat = d.value := by
  constructor
  · intro h
    obtain ⟨d, rfl⟩ : ∃ d : Decimal, d.text = cs := by
      by_cases hminus : cs.head? = some '-'
      · obtain ⟨digits, rfl⟩ := List.head?_eq_some_iff.1 hminus
        obtain ⟨d, hnegative, rfl⟩ := exists_decimal (ofDecimal?_minus digits ▸ h)
        exact ⟨d, by rw [Decimal.text, hnegative]; rfl⟩
      · obtain ⟨d, hnegative, rfl⟩ := exists_decimal (ofDecimal?_plain hminus ▸ h)
        exact ⟨d, by rw [Decimal.text, hnegative]; rfl⟩
    exact ⟨d, rfl, Decimal.ofDecimal?_text_eq_some_iff.1 h⟩
  · rintro ⟨d, rfl, h⟩
    exact Decimal.ofDecimal?_text_eq_some_iff.2 h

/-! ## Step by step -/

namespace Ratio

/-- The value of the digits after the point, which may be none. -/
def placesValue? (places : List Char) : Option Int :=
  if places = [] then some 0 else Numeral.integer? .int64 places

def signed? (negative : Bool) (n : Int) : Option Int :=
  if negative then Width.int64.narrow? (-n) else some n

/-- A literal whose sign has been read, step by step: 32 bits hold the number of bytes after the
point, and 64 the unit, the two parts, the product and the sum. -/
def stepsAfterSign? (negative : Bool) (digits : List Char) : Option Ratio := do
  let (whole, rest) := digits.span (· ≠ '.')
  let places := rest.drop 1
  guard (whole ≠ [] ∧ whole.all Char.isDigit)
  guard (places.all Char.isDigit)
  let unit ← Width.int64.narrow? (10 ^ (Width.nat32.wrap (byteLength places)).toNat : Nat)
  let w ← Numeral.integer? .int64 whole
  let v ← placesValue? places
  let product ← Width.int64.narrow? (w * unit)
  let n ← Width.int64.narrow? (product + v)
  ofQuotient? (← signed? negative n) unit

/-- A literal, step by step. -/
def steps? : List Char → Option Ratio
  | '-' :: digits => stepsAfterSign? true digits
  | digits => stepsAfterSign? false digits

theorem byteLength_of_isDigit {ds : List Char} (h : ∀ c ∈ ds, c.isDigit = true) :
    byteLength ds = ds.length := by
  induction ds with
  | nil => rfl
  | cons c ds ih =>
    obtain ⟨hc, hds⟩ := List.forall_mem_cons.1 h
    simp only [Char.isDigit, Bool.and_eq_true, decide_eq_true_eq, UInt32.le_iff_toNat_le] at hc
    have hone : c.utf8Size = 1 := by
      rw [Char.utf8Size, if_pos]
      exact UInt32.le_iff_toNat_le.2 (hc.2.trans (by decide))
    rw [byteLength_cons, ih hds, hone, List.length_cons, Nat.add_comm]

/-- Digits at the end of fewer than 2 ^ 32 bytes are counted right. -/
theorem wrap_byteLength {ds digits : List Char} (hds : ∀ c ∈ ds, c.isDigit = true)
    (hafter : ds <:+ digits) (h : byteLength digits < 2 ^ 32) :
    (Width.nat32.wrap (byteLength ds)).toNat = ds.length := by
  obtain ⟨before, rfl⟩ := hafter
  rw [byteLength_append] at h
  have hholds : Width.nat32.Holds (byteLength ds) := by
    simp only [Width.Holds, Width.nat32]
    omega
  rw [Width.wrap_of_holds hholds, byteLength_of_isDigit hds, Int.toNat_natCast]

theorem integer?_digits {ds : List Char} (hne : ds ≠ []) (h : ∀ c ∈ ds, c.isDigit = true) :
    Numeral.integer? .int64 ds = Width.int64.narrow? (Nat.ofDigitChars 10 ds 0) := by
  obtain ⟨c, tail, rfl⟩ := List.exists_cons_of_ne_nil hne
  rw [Numeral.integer?_of_head_isDigit _ (h c List.mem_cons_self), Numeral.natural?,
    if_pos ⟨hne, List.all_eq_true.2 h⟩]
  rfl

theorem placesValue?_digits {ds : List Char} (h : ∀ c ∈ ds, c.isDigit = true) :
    placesValue? ds = Width.int64.narrow? (Nat.ofDigitChars 10 ds 0) := by
  rw [placesValue?]
  split
  · next hnil => rw [hnil, Width.narrow?_of_holds (by decide)]; rfl
  · next hne => exact integer?_digits hne h

/-- No part is wider than the number in units. -/
theorem holds_parts {unit w v : Nat} (hunit : 0 < unit)
    (h : Width.int64.Holds (w * unit + v : Nat)) :
    Width.int64.Holds w ∧ Width.int64.Holds v ∧ Width.int64.Holds (w * unit : Nat) := by
  have hw : w * 1 ≤ w * unit := Nat.mul_le_mul_left w hunit
  simp only [Width.Holds, Width.int64] at h ⊢
  omega

theorem holds_unit_iff {places : Nat} :
    Width.int64.Holds (10 ^ places : Nat) ↔ places ≤ maxPlaces := by
  constructor
  · intro h
    by_contra hmore
    have hten : 10 ^ 19 ≤ 10 ^ places := Nat.pow_le_pow_right (by decide) (Nat.lt_of_not_le hmore)
    have hmost := h.2
    simp only [Width.int64] at hmost
    omega
  · intro h
    have hten : 10 ^ places ≤ 10 ^ 18 := Nat.pow_le_pow_right (by decide) h
    exact ⟨Int.le_trans (by decide) (Int.natCast_nonneg _), Int.ofNat_le.2 (hten.trans (by decide))⟩

/-- The sign of a natural number never overflows. -/
theorem signed?_natCast (negative : Bool) {n : Nat} (h : Width.int64.Holds n) :
    signed? negative n = some (if negative then -n else n : Int) := by
  cases negative with
  | false => rfl
  | true =>
    refine Width.narrow?_of_holds ?_
    simp only [Width.Holds, Width.int64] at h ⊢
    omega

/-- The product and the sum overflow only if the number in units does. -/
theorem narrow_parts {unit w v : Nat} (hunit : 0 < unit) (f : Int → Option Ratio) :
    (do
      let w ← Width.int64.narrow? w
      let v ← Width.int64.narrow? v
      let product ← Width.int64.narrow? (w * unit)
      let n ← Width.int64.narrow? (product + v)
      f n) = (Width.int64.narrow? (w * unit + v : Nat)).bind f := by
  by_cases hn : Width.int64.Holds (w * unit + v : Nat)
  · obtain ⟨hw, hv, hproduct⟩ := holds_parts hunit hn
    rw [Width.narrow?_of_holds hw, Width.narrow?_of_holds hv, Width.narrow?_of_holds hn]
    push_cast at hproduct hn ⊢
    simp only [Option.bind_eq_bind, Option.bind_some, Width.narrow?_of_holds hproduct,
      Width.narrow?_of_holds hn]
  · have hnone : Width.int64.narrow? (w * unit + v : Nat) = none := if_neg hn
    rw [hnone]
    refine Option.eq_none_iff_forall_ne_some.2 fun q hq => hn ?_
    obtain ⟨_, hw, hq⟩ := Option.bind_eq_some_iff.1 hq
    obtain ⟨rfl, -⟩ := Width.narrow?_eq_some_iff.1 hw
    obtain ⟨_, hv, hq⟩ := Option.bind_eq_some_iff.1 hq
    obtain ⟨rfl, -⟩ := Width.narrow?_eq_some_iff.1 hv
    obtain ⟨_, hproduct, hq⟩ := Option.bind_eq_some_iff.1 hq
    obtain ⟨rfl, -⟩ := Width.narrow?_eq_some_iff.1 hproduct
    obtain ⟨_, hsum, -⟩ := Option.bind_eq_some_iff.1 hq
    obtain ⟨-, hsum⟩ := Width.narrow?_eq_some_iff.1 hsum
    push_cast
    exact hsum

/-- No step of a short text overflows unless the unit or the number in units does. -/
theorem stepsAfterSign?_eq (negative : Bool) {digits : List Char} (h : byteLength digits < 2 ^ 32) :
    stepsAfterSign? negative digits = afterSign? negative digits := by
  rw [stepsAfterSign?, afterSign?, List.span_eq_takeWhile_dropWhile]
  dsimp only
  set whole := digits.takeWhile (· ≠ '.')
  set places := (digits.dropWhile (· ≠ '.')).drop 1
  have hafter : places <:+ digits := (List.drop_suffix 1 _).trans (List.dropWhile_suffix _)
  by_cases hwhole : whole ≠ [] ∧ whole.all Char.isDigit
  · have hnatural : Numeral.natural? whole = some (Nat.ofDigitChars 10 whole 0) := if_pos hwhole
    have hw := integer?_digits hwhole.1 (List.all_eq_true.1 hwhole.2)
    by_cases hplaces : places.all Char.isDigit
    · have hv := placesValue?_digits (List.all_eq_true.1 hplaces)
      have hcount := wrap_byteLength (List.all_eq_true.1 hplaces) hafter h
      rw [hcount, hw, hv, hnatural, hplaces, Bool.true_and]
      by_cases hfew : places.length ≤ maxPlaces
      · have hunit := Width.narrow?_of_holds (holds_unit_iff.2 hfew)
        simp only [guard, if_pos hwhole, hfew, hunit, decide_true, if_true, Option.bind_eq_bind,
          Option.bind_some, Option.pure_def]
        refine (narrow_parts (Nat.pow_pos (by decide)) _).trans (Option.bind_congr fun n hn => ?_)
        obtain ⟨rfl, hholds⟩ := Width.narrow?_eq_some_iff.1 hn
        rw [signed?_natCast negative hholds]
        rfl
      · have hunit : Width.int64.narrow? (10 ^ places.length : Nat) = none :=
          if_neg (mt holds_unit_iff.1 hfew)
        simp only [guard, if_pos hwhole, hfew, hunit]
        rfl
    · rw [Bool.not_eq_true] at hplaces
      simp only [guard, if_pos hwhole, hplaces]
      rfl
  · have hnatural : Numeral.natural? whole = none := if_neg hwhole
    simp only [guard, if_neg hwhole, hnatural, Option.failure_eq_none, Option.bind_eq_bind,
      Option.bind_none, Option.bind_fun_none]

theorem steps?_eq {cs : List Char} (h : byteLength cs < 2 ^ 32) : steps? cs = ofDecimal? cs := by
  cases cs with
  | nil => exact stepsAfterSign?_eq false h
  | cons c cs =>
    by_cases hc : c = '-'
    · subst hc
      rw [byteLength_cons] at h
      exact stepsAfterSign?_eq true (by omega)
    · have hhead : (c :: cs).head? ≠ some '-' := fun hhead => hc (Option.some.inj hhead)
      rw [ofDecimal?_plain hhead, ← stepsAfterSign?_eq false h, steps?]
      exact fun digits hdigits => hc (List.cons.inj hdigits).1

end Ratio

end Stave
