import Stave.Proofs.Ratio.Decimal
import Stave.Proofs.Score.Longest
import Stave.Proofs.Score.Steps

/-!
# Amounts are read exactly

The lexer's numbers are the decimal literals with digits behind the point, if there is one.  After
`@` or `/` such a number is read exactly if it fits, and is refused otherwise; as a degree it is a
whole number and read exactly as well.

    cs ∈ Token.number.language ↔ cs is the text of a literal             (mem_number)
    .ok l ∈ items source → l.text ∈ l.token.language                     (mem_language_of_items)
    a number reads as the literal that it is                             (readsAs_of_text)
    texts, steps and numbers together                                    (amounts_exact)
-/

namespace Stave.Score

open Stave.Text

/-! ## Numbers and literals -/

theorem isNumeral_whole (d : Decimal) : IsNumeral (Decimal.signText d.negative ++ d.whole) := by
  refine ⟨d.whole, d.whole_ne_nil, d.whole_isDigit, ?_⟩
  cases d.negative
  · exact .inl rfl
  · exact .inr rfl

theorem exists_signText {cs : List Char} (h : IsNumeral cs) : ∃ (negative : Bool) (ds : List Char),
    ds ≠ [] ∧ (∀ c ∈ ds, c.isDigit = true) ∧ cs = Decimal.signText negative ++ ds := by
  obtain ⟨ds, hne, hds, rfl | rfl⟩ := h
  · exact ⟨false, _, hne, hds, rfl⟩
  · exact ⟨true, ds, hne, hds, rfl⟩

theorem mem_places_iff {cs : List Char} : cs ∈ places ↔ ∃ ds : Option (List Char), ds ≠ some [] ∧
    (∀ digits ∈ ds, ∀ c ∈ digits, c.isDigit = true) ∧ cs = Decimal.placesText ds := by
  rw [mem_places]
  constructor
  · rintro (rfl | ⟨ds, hds, rfl⟩)
    · exact ⟨none, (Option.some_ne_none _).symm, fun _ h => absurd h (Option.not_mem_none _), rfl⟩
    · obtain ⟨hne, hall⟩ := mem_digits.1 hds
      refine ⟨some ds, fun h => hne (Option.some.inj h), fun digits h => ?_, rfl⟩
      cases h
      exact hall
  · rintro ⟨_ | ds, hne, hall, rfl⟩
    · exact .inl rfl
    · exact .inr ⟨ds, mem_digits.2 ⟨fun h => hne (congrArg some h), hall ds rfl⟩, rfl⟩

/-- The pattern of a number is that of the literals with digits behind each point. -/
theorem mem_number {cs : List Char} :
    cs ∈ Token.number.language ↔ ∃ d : Decimal, d.places ≠ some [] ∧ d.text = cs := by
  rw [Token.language, Language.mem_mul]
  constructor
  · rintro ⟨v, hv, w, hw, rfl⟩
    obtain ⟨negative, whole, hne, hwhole, rfl⟩ := exists_signText (mem_signed.1 hv)
    obtain ⟨ds, hds, hall, rfl⟩ := mem_places_iff.1 hw
    exact ⟨⟨negative, whole, ds, hne, hwhole, hall⟩, hds, (List.append_assoc _ _ _).symm⟩
  · rintro ⟨d, hd, rfl⟩
    exact ⟨_, mem_signed.2 (isNumeral_whole d), _, mem_places_iff.2 ⟨_, hd, d.places_isDigit, rfl⟩,
      List.append_assoc _ _ _⟩

/-- Each lexeme is a word of its token, whatever stands before it. -/
theorem mem_language_of_items {o : Nat} {cs : List Char} {l : Lexeme} (h : .ok l ∈ itemsFrom o cs) :
    l.text ∈ l.token.language := by
  obtain ⟨before, after, hitems⟩ := List.append_of_mem h
  obtain ⟨S, s, T, hsegments, -, hs, -⟩ := itemsFrom_eq_append hitems
  obtain ⟨b, -, hb, -⟩ := segments_cut hsegments
  obtain ⟨c, tail, after, -, htext, -, hkind, -⟩ := segments_eq_cons hb
  unfold Segment.item? at hs
  split at hs
  · cases hs
  · cases hs
  · next t _ hk =>
    cases hs
    have hsegment : (segmentAt c (tail ++ after)).1 ≠ .stray := by
      rw [hkind, hk]
      nofun
    have hmem := segmentAt_mem hsegment
    rw [hkind, List.take_left, ← htext, hk] at hmem
    exact hmem
  · cases hs

/-! ## Numbers in a reading -/

/-- What a mark with an amount makes of a duration. -/
def AmountMark.Scales (duration amount result : ℚ) : AmountMark → Prop
  | .multiply => 0 ≤ amount ∧ result = duration * amount
  | .divide => 0 < amount ∧ result = duration / amount

/-- How a number is read: as a degree with its exact value, if at all, and as an amount with its
exact value, unless it does not fit. -/
structure ReadsAs (l : Lexeme) (d : Decimal) : Prop where
  text : d.text = l.text
  degree : ∀ n, degreeOf l = .ok n → n = d.value
  refused : ∀ (r : Reading) (draft : Draft) (mark : AmountMark), r.phase = .amount draft mark →
    (r.step l = .error (.invalidNumber l.text .amountRange l.span) ↔ ¬ d.Fits)
  taken : ∀ (r : Reading) (draft : Draft) (mark : AmountMark), r.phase = .amount draft mark →
    ∀ r', r.step l = .ok r' ↔ d.Fits ∧ ∃ q : Ratio,
      mark.Scales draft.factor.toRat d.value q.toRat ∧
      r' = r.at { draft with factor := q, lastMark := l }

section

variable {l : Lexeme} {d : Decimal} {r r' : Reading} {draft : Draft} {mark : AmountMark}

theorem step_of_amount (hp : r.phase = .amount draft mark) (l : Lexeme) :
    r.step l = do return r.at (← draft.measure mark l) := by
  rw [Reading.step, hp]
  rfl

theorem Draft.measure_amountRange_iff (ht : l.token = .number) :
    draft.measure mark l = .error (.invalidNumber l.text .amountRange l.span) ↔
      Ratio.ofDecimal? l.text = none := by
  unfold Draft.measure
  rw [if_neg (not_not.2 ht)]
  cases Ratio.ofDecimal? l.text with
  | none => exact iff_of_true rfl rfl
  | some amount =>
    -- every other refusal has another flaw
    refine iff_of_false (fun h => ?_) nofun
    cases mark with
    | multiply =>
      dsimp only at h
      split at h
      · cases h
      · split at h <;> cases h
    | divide =>
      dsimp only at h
      split at h
      · cases h
      · split at h <;> cases h

/-- A degree has no point, so it is the numeral that its literal is. -/
theorem value_of_degreeOf {n : Int} (htext : d.text = l.text) (h : degreeOf l = .ok n) :
    n = d.value := by
  obtain ⟨hpoint, hn⟩ := Option.ite_none_left_eq_some.1 (degreeOf_eq_ok_iff.1 h)
  rw [← htext] at hpoint hn
  have hplaces : d.places = none := by
    rcases hds : d.places with _ | ds
    · rfl
    · refine absurd ?_ hpoint
      rw [Decimal.text, hds, List.contains_iff_mem]
      simp [Decimal.placesText]
  rw [Decimal.integer?_text hplaces] at hn
  obtain ⟨rfl, -⟩ := Width.narrow?_eq_some_iff.1 hn
  rw [d.value_eq_div, Decimal.unit, Decimal.fraction, hplaces]
  simp

theorem scale?_iff_scales {duration q : Ratio} {cs : List Char} :
    mark.scale? duration cs = some q ↔ ∃ amount, Ratio.ofDecimal? cs = some amount ∧
      mark.Scales duration.toRat amount.toRat q.toRat := by
  rw [AmountMark.scale?_eq_some_iff]
  refine exists_congr fun amount => and_congr_right fun _ => ?_
  cases mark with
  | multiply => rw [AmountMark.Scales, Ratio.toRat_nonneg]
  | divide => rw [AmountMark.Scales, Ratio.toRat_pos]

theorem scale?_text_iff {duration q : Ratio} (htext : d.text = l.text) :
    mark.scale? duration l.text = some q ↔
      d.Fits ∧ mark.Scales duration.toRat d.value q.toRat := by
  rw [scale?_iff_scales, ← htext]
  constructor
  · rintro ⟨amount, hamount, hscales⟩
    obtain ⟨hfits, hvalue⟩ := Decimal.ofDecimal?_text_eq_some_iff.1 hamount
    exact ⟨hfits, hvalue ▸ hscales⟩
  · rintro ⟨hfits, hscales⟩
    obtain ⟨amount, hamount⟩ := hfits.exists_ratio
    have hvalue := (Decimal.ofDecimal?_text_eq_some_iff.1 hamount).2
    exact ⟨amount, hamount, hvalue ▸ hscales⟩

theorem readsAs_of_text (ht : l.token = .number) (htext : d.text = l.text) : ReadsAs l d where
  text := htext
  degree _ h := value_of_degreeOf htext h
  refused r draft mark hp := by
    rw [← Decimal.ofDecimal?_text_eq_none_iff, htext, ← Draft.measure_amountRange_iff ht, step_of_amount hp]
    refine ⟨bind_pure_eq_error, fun h => ?_⟩
    rw [h]
    rfl
  taken r draft mark hp r' := by
    rw [step_of_amount hp, bind_pure_eq_ok_iff]
    simp only [Draft.measure_eq_ok_iff, scale?_text_iff htext]
    constructor
    · rintro ⟨_, ⟨-, q, ⟨hfits, hq⟩, rfl⟩, rfl⟩
      exact ⟨hfits, q, hq, rfl⟩
    · rintro ⟨hfits, q, hq, rfl⟩
      exact ⟨_, ⟨ht, q, ⟨hfits, hq⟩, rfl⟩, rfl⟩

end

/-- Decimal literals are read exactly.  A text is a ratio if it is a literal that fits, and then the
ratio is the number that the literal spells; all that fit are read.  The overflowing steps of the
reading come to the same on every text of fewer than 2 ^ 32 bytes.  Each number of a source is a
literal and reads as what it is. -/
theorem amounts_exact :
    (∀ (cs : List Char) (q : Ratio), Ratio.ofDecimal? cs = some q ↔
      ∃ d : Decimal, d.text = cs ∧ d.Fits ∧ q.toRat = d.value) ∧
    (∀ d : Decimal, d.Fits → ∃ q, Ratio.ofDecimal? d.text = some q) ∧
    (∀ cs, byteLength cs < 2 ^ 32 → Ratio.steps? cs = Ratio.ofDecimal? cs) ∧
    ∀ (source : List Char) (l : Lexeme), .ok l ∈ items source → l.token = .number →
      ∃ d : Decimal, d.places ≠ some [] ∧ ReadsAs l d := by
  refine ⟨fun _ _ => Ratio.ofDecimal?_eq_some_iff, fun _ h => h.exists_ratio,
    fun _ h => Ratio.steps?_eq h, fun source l hl ht => ?_⟩
  have hmem := mem_language_of_items (o := 0) hl
  rw [ht] at hmem
  obtain ⟨d, hd, htext⟩ := mem_number.1 hmem
  exact ⟨d, hd, readsAs_of_text ht htext⟩

/-- The greatest number in units is taken, and the next one refused. -/
theorem amounts_exact_limits :
    (∃ q, Ratio.ofDecimal? "-9.223372036854775807".toList = some q ∧
      q.toRat = -9223372036854775807 / 10 ^ 18) ∧
    Ratio.steps? "9.223372036854775808".toList = none ∧
    Reading.step ⟨[], [], .amount ⟨.rest, ⟨0, 1⟩, 1, 0, 0, [], none⟩ .multiply⟩
        ⟨.number, ⟨2, 22⟩, "9.223372036854775808".toList⟩ =
      .error (.invalidNumber "9.223372036854775808".toList .amountRange ⟨2, 22⟩) := by
  obtain ⟨-, hall, hsteps, hreads⟩ := amounts_exact
  have hnone : Ratio.ofDecimal? "9.223372036854775808".toList = none := by decide +kernel
  refine ⟨?_, ?_, ?_⟩
  · let d : Decimal := ⟨true, "9".toList, some "223372036854775807".toList, by decide,
      List.all_eq_true.1 rfl, fun ds h => by cases h; exact List.all_eq_true.1 rfl⟩
    have hfits : d.Fits := ⟨by decide, by decide +kernel, by decide +kernel⟩
    have hvalue : d.value = -9223372036854775807 / 10 ^ 18 := by
      have hnumerator : d.numerator = -9223372036854775807 := by decide +kernel
      have hunit : d.unit = 10 ^ 18 := rfl
      rw [d.value_eq_div, hnumerator, hunit]
      norm_num
    obtain ⟨q, hq⟩ := hall d hfits
    exact ⟨q, hq, hvalue ▸ (Decimal.ofDecimal?_text_eq_some_iff.1 hq).2⟩
  · rw [hsteps _ (by decide)]
    exact hnone
  · obtain ⟨d, -, hd⟩ := hreads "_@9.223372036854775808".toList
      ⟨.number, ⟨2, 22⟩, "9.223372036854775808".toList⟩ (by decide +kernel) rfl
    refine (hd.refused _ _ _ rfl).2 fun hfits => ?_
    obtain ⟨q, hq⟩ := hall d hfits
    rw [hd.text, hnone] at hq
    cases hq

end Stave.Score
