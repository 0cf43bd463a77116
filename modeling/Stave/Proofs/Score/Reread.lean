import Mathlib.Data.List.TakeWhile
import Stave.Proofs.Ratio.Text
import Stave.Proofs.Score.Words

/-!
# Reading words back

The reader takes the words of a tone and of its marks one by one and arrives at a draft that
bears them.

    l.word = t.word → r.receive l = .ok (r.draw (.note t) l.span)                  (receive_tone)
    ls.map Lexeme.word = durationWords q → (r.at d).run ls = .ok (r.at d'), d' bearing q
                                                                           (run_durationWords)
-/

namespace Stave.Score

open Stave.Text

/-! ## Numbers and names -/

theorem Lexeme.word_eq {l : Lexeme} {t : Token} {cs : List Char} (h : l.word = (t, cs)) :
    l.token = t ∧ l.text = cs := by
  rw [← Prod.mk.injEq]
  exact h

theorem map_word_eq_pair {ls : List Lexeme} {w v : Word} (h : ls.map Lexeme.word = [w, v]) :
    ∃ l1 l2, ls = [l1, l2] ∧ l1.word = w ∧ l2.word = v := by
  obtain ⟨l1, ls, rfl, h1, h⟩ := List.map_eq_cons_iff.1 h
  obtain ⟨l2, ls, rfl, h2, h⟩ := List.map_eq_cons_iff.1 h
  rw [List.map_eq_nil_iff] at h
  subst h
  exact ⟨l1, l2, rfl, h1, h2⟩

theorem not_contains_of_isNumeral {cs : List Char} (h : IsNumeral cs) : cs.contains '.' = false := by
  obtain ⟨ds, -, hds, h⟩ := h
  have hd : '.' ∉ ds := fun hm => ne_of_isDigit (hds _ hm) rfl rfl
  rcases h with rfl | rfl <;> simp [hd]

theorem accidentalOf_accidentalText {accidental : Int} (h : Width.int32.Holds accidental) :
    NoteName.accidentalOf (NoteName.accidentalText accidental) = accidental := by
  have hcount : ((NoteName.accidentalText accidental).count '#' : Int) -
      (NoteName.accidentalText accidental).count 'b' = accidental := by
    unfold NoteName.accidentalText
    split
    · rw [List.count_replicate_self, List.count_replicate, if_neg (by decide)]
      omega
    · rw [List.count_replicate_self, List.count_replicate, if_neg (by decide)]
      omega
  rw [NoteName.accidentalOf, hcount, Width.wrap_of_holds h]

theorem octaveOf?_octaveText {octave : Option Int} (h : ∀ n ∈ octave, Width.int32.Holds n) :
    NoteName.octaveOf? (NoteName.octaveText octave).toList = some octave := by
  cases octave with
  | none => rfl
  | some n =>
    have hn := Numeral.integer?_toString .int32 n (h n rfl)
    obtain ⟨ds, hne, -, hcs⟩ := isNumeral_toString n
    show NoteName.octaveOf? (toString n).toList = some (some n)
    cases ht : (toString n).toList with
    | nil =>
      rw [ht] at hcs
      rcases hcs with rfl | hcs
      · exact absurd rfl hne
      · cases hcs
    | cons c cs =>
      rw [NoteName.octaveOf?, ← ht, hn]
      · rfl
      · exact List.cons_ne_nil c cs

theorem octaveText_head (octave : Option Int) :
    ∀ c ∈ (NoteName.octaveText octave).toList.head?, NoteName.isAccidental c = false := by
  intro c hc
  rcases octaveText_cases octave with h | ⟨ds, hne, hds, h⟩
  · rw [h] at hc
    cases hc
  · obtain ⟨d, ds, rfl⟩ := List.exists_cons_of_ne_nil hne
    rcases h with h | h
    · rw [h] at hc
      cases hc
      simp [NoteName.isAccidental, ne_of_isDigit (hds c (by simp))]
    · rw [h] at hc
      cases hc
      rfl

theorem read?_toString {name : NoteName} (h : (Tone.named name).Spelt) :
    NoteName.read? (toString name).toList = some name := by
  obtain ⟨letter, accidental, octave⟩ := name
  obtain ⟨hl, ha, ho⟩ := h
  obtain ⟨pitch, hp⟩ := Option.isSome_iff_exists.1 hl
  have hm : ∀ c ∈ NoteName.accidentalText accidental, NoteName.isAccidental c = true :=
    isAccidental_of_mem
  obtain ⟨htake, hdrop⟩ := takeWhile_of_head (octaveText_head octave)
  rw [toList_toString_name, NoteName.read?, List.takeWhile_append_of_pos hm,
    List.dropWhile_append_of_pos hm, htake, hdrop, octaveOf?_octaveText ho, List.append_nil,
    accidentalOf_accidentalText ha]
  show (letterClass? letter).bind _ = _
  rw [hp]
  rfl

theorem receive_tone {r : Reading} {l : Lexeme} {t : Tone} (ht : t.Spelt) (h : l.word = t.word) :
    r.receive l = .ok (r.draw (.note t) l.span) := by
  cases t with
  | degree n =>
    obtain ⟨hk, hx⟩ : l.token = .number ∧ l.text = (toString n).toList := Lexeme.word_eq h
    have htone : (ToneWord.degree ⟨l, hk⟩).tone? = some (.degree n) := by
      rw [ToneWord.tone?, hx, not_contains_of_isNumeral (isNumeral_toString n), if_neg (by decide),
        Numeral.integer?_toString .int64 n ht]
      rfl
    exact (ToneWord.degree ⟨l, hk⟩).receive_iff.2 ⟨_, htone, rfl⟩
  | named name =>
    obtain ⟨hk, hx⟩ : l.token = .noteName ∧ l.text = (toString name).toList := Lexeme.word_eq h
    have htone : (ToneWord.name ⟨l, hk⟩).tone? = some (.named name) := by
      rw [ToneWord.tone?, hx, read?_toString ht]
      rfl
    exact (ToneWord.name ⟨l, hk⟩).receive_iff.2 ⟨_, htone, rfl⟩

/-! ## Marks -/

/-- What a draft amounts to, its spans apart. -/
structure Draft.Bears (d : Draft) (core : Core) (factor : Ratio) (shift : Int)
    (as : List Articulation) : Prop where
  core : d.core = core
  factor : d.factor = factor
  dots : d.dots = 0
  shift : d.shift = shift
  articulations : d.articulations = as

section

variable {r : Reading} {d : Draft} {core : Core} {factor : Ratio} {shift : Int}
  {as : List Articulation} {tone : Tone}

theorem Draft.Bears.sealed (h : d.Bears core factor shift as) :
    ∃ span, d.sealed = .ok (d.node factor span) := by
  have hdot : dotFactor? d.dots = some 1 := by
    rw [h.dots]
    decide
  unfold Draft.sealed
  split
  · exact ⟨d.span, by rw [h.factor]⟩
  · next mark _ =>
    refine ⟨d.span.merge mark.span, ?_⟩
    rw [hdot, h.factor, Option.bind_some, Ratio.mul?_one]

theorem Draft.Bears.rests (h : d.Bears core factor shift as) (hr : r.phase = .between) :
    ∃ span, (r.at d).Rests { r with here := d.node factor span :: r.here } := by
  obtain ⟨span, hs⟩ := h.sealed
  refine ⟨span, hr, .inr ⟨d, rfl, ?_⟩⟩
  show (do return { r.at d with here := (← d.sealed) :: r.here, phase := .between }) = _
  rw [hs, ← hr]
  rfl

theorem measure_numberWord {kind : AmountMark} {l : Lexeme} {n : Int} {q : Ratio}
    (hl : l.word = numberWord n) (h0 : 0 ≤ n) (hn : Width.int64.Holds n)
    (hq : match kind with
      | .multiply => d.factor.mul? (Ratio.ofInt n hn) = some q
      | .divide => 0 < n ∧ d.factor.div? (Ratio.ofInt n hn) = some q) :
    d.measure kind l = .ok { d with factor := q, lastMark := l } := by
  obtain ⟨ht, hx⟩ := Lexeme.word_eq hl
  refine Draft.measure_eq_ok_iff.2 ⟨ht, q, ?_, rfl⟩
  have habs : Width.int64.Holds n.natAbs := by rwa [Int.natAbs_of_nonneg h0]
  rw [AmountMark.scale?, hx, Ratio.ofDecimal?_toString hn habs]
  cases kind with
  | multiply =>
    have hle : 0 ≤ Ratio.ofInt n hn := by
      rw [← Ratio.toRat_nonneg, Ratio.toRat_ofInt]
      exact_mod_cast h0
    exact (if_pos hle).trans hq
  | divide =>
    have hlt : 0 < Ratio.ofInt n hn := by
      show 0 * (1 : Int) < n * 1
      omega
    exact (if_pos hlt).trans hq.2

theorem run_amount {l1 l2 : Lexeme} {m : AmountMark} {d' : Draft} (h1 : l1.token = m.token)
    (h2 : d.measure m l2 = .ok d') : (r.at d).run [l1, l2] = .ok (r.at d') := by
  rw [Reading.run_cons (step_amount m ⟨l1, h1⟩), Reading.run_cons (step_number m l2 h2)]
  rfl

theorem run_durationWords {q : Ratio} (hq : 0 ≤ q) (h : d.Bears core 1 shift as) {ls : List Lexeme}
    (hls : ls.map Lexeme.word = durationWords q) :
    ∃ d', (r.at d).run ls = .ok (r.at d') ∧ d'.Bears core q shift as := by
  have hnum : 0 ≤ q.num := by
    have : ¬ q.num < 0 := fun hn => (Ratio.isNegative_iff q).1 (decide_eq_true hn) hq
    omega
  have hden : (0 : Int) < q.den := by exact_mod_cast q.den_pos
  have hmul : ∀ n hn, d.factor.mul? (Ratio.ofInt n hn) = some (Ratio.ofInt n hn) := by
    intro n hn
    rw [h.factor]
    exact Ratio.one_mul? _
  have hdiv : ∀ n hn, n = q.num → (Ratio.ofInt n hn).div? (Ratio.ofInt q.den q.den_holds) = some q := by
    rintro n hn rfl
    have hne : (Ratio.ofInt q.den q.den_holds).toRat ≠ 0 := by
      rw [Ratio.toRat_ofInt]
      exact_mod_cast hden.ne'
    rw [Ratio.div?_eq_some_iff hne, Ratio.toRat_ofInt, Ratio.toRat_ofInt, Ratio.toRat_eq_div]
    rfl
  unfold durationWords at hls
  split at hls
  · next h1 =>
    rw [List.map_eq_nil_iff] at hls
    subst hls h1
    exact ⟨d, rfl, h⟩
  · split at hls
    · next h1 =>
      obtain ⟨l1, l2, rfl, w1, w2⟩ := map_word_eq_pair hls
      have hf : d.factor.div? (Ratio.ofInt q.den q.den_holds) = some q := by
        rw [h.factor]
        exact hdiv 1 (by decide) h1.symm
      exact ⟨_, run_amount (m := .divide) (Lexeme.word_eq w1).1 (measure_numberWord w2 hden.le q.den_holds ⟨hden, hf⟩),
        h.core, rfl, h.dots, h.shift, h.articulations⟩
    · split at hls
      · next h1 =>
        obtain ⟨l1, l2, rfl, w1, w2⟩ := map_word_eq_pair hls
        have hq1 : Ratio.ofInt q.num q.num_holds = q := Ratio.ext rfl h1.symm
        have hf : d.factor.mul? (Ratio.ofInt q.num q.num_holds) = some q := by
          rw [hmul, hq1]
        exact ⟨_, run_amount (m := .multiply) (Lexeme.word_eq w1).1
          (measure_numberWord w2 hnum q.num_holds hf), h.core, rfl, h.dots, h.shift, h.articulations⟩
      · change _ = [Token.multiply.word, numberWord q.num] ++ [Token.divide.word, numberWord q.den] at hls
        obtain ⟨ls1, ls2, rfl, hls1, hls2⟩ := List.map_eq_append_iff.1 hls
        obtain ⟨l1, l2, rfl, w1, w2⟩ := map_word_eq_pair hls1
        obtain ⟨l3, l4, rfl, w3, w4⟩ := map_word_eq_pair hls2
        have e1 := run_amount (r := r) (m := .multiply) (Lexeme.word_eq w1).1
          (measure_numberWord w2 hnum q.num_holds (hmul _ _))
        rw [Reading.run_append e1]
        exact ⟨_, run_amount (m := .divide) (Lexeme.word_eq w3).1
          (measure_numberWord w4 hden.le q.den_holds ⟨hden, hdiv _ _ rfl⟩), h.core, rfl, h.dots, h.shift,
          h.articulations⟩

theorem run_shifts {t : Token} {δ : Int} (ht : ∀ (d : Draft) (l : Lexeme), l.token = t →
      d.core = .note tone → (r.at d).step l = .ok (r.at { d.shifted δ with lastMark := l }))
    (k : Nat) {ls : List Lexeme} (hls : ls.map Lexeme.word = List.replicate k t.word)
    (h : d.Bears (.note tone) factor shift as) (h0 : Width.int32.Holds shift)
    (hδ : δ = 1 ∨ δ = -1) (hk : Width.int32.Holds (shift + k * δ)) :
    ∃ d', (r.at d).run ls = .ok (r.at d') ∧ d'.Bears (.note tone) factor (shift + k * δ) as := by
  induction k generalizing d shift ls with
  | zero =>
    rw [List.replicate_zero, List.map_eq_nil_iff] at hls
    subst hls
    exact ⟨d, rfl, h.core, h.factor, h.dots, by rw [h.shift]; omega, h.articulations⟩
  | succ k ih =>
    obtain ⟨l, ls, rfl, hl, hls⟩ := List.map_eq_cons_iff.1 hls
    have hnext : shift + δ + k * δ = shift + (k + 1 : Nat) * δ := by
      rw [Nat.cast_succ, Int.add_mul]
      omega
    have hmid : Width.int32.Holds (shift + δ) := by
      simp only [Width.Holds, Width.int32] at h0 hk ⊢
      rcases hδ with rfl | rfl <;> omega
    have hd : ({ d.shifted δ with lastMark := l } : Draft).Bears (.note tone) factor (shift + δ) as := by
      refine ⟨h.core, h.factor, h.dots, ?_, h.articulations⟩
      show Width.int32.clamp (d.shift + δ) = _
      rw [h.shift, Width.clamp_of_holds hmid]
    rw [Reading.run_cons (ht d l (Lexeme.word_eq hl).1 h.core), ← hnext]
    exact ih hls hd hmid (by rw [hnext]; exact hk)

theorem run_shiftWords {shift : Int} {ls : List Lexeme}
    (hls : ls.map Lexeme.word = List.replicate shift.natAbs (shiftToken shift).word)
    (h : d.Bears (.note tone) factor 0 as) (hs : Width.int32.Holds shift) :
    ∃ d', (r.at d).run ls = .ok (r.at d') ∧ d'.Bears (.note tone) factor shift as := by
  have h0 : Width.int32.Holds 0 := by decide
  unfold shiftToken at hls
  split at hls
  · next hpos =>
    have e : (0 : Int) + shift.natAbs * 1 = shift := by omega
    rw [← e] at hs ⊢
    exact run_shifts (t := .up) (fun d l hl hc => step_inflection hc .up ⟨l, hl⟩) _
      (by simpa using hls) h h0 (.inl rfl) hs
  · next hneg =>
    have e : (0 : Int) + shift.natAbs * -1 = shift := by omega
    rw [← e] at hs ⊢
    exact run_shifts (t := .down) (fun d l hl hc => step_inflection hc .down ⟨l, hl⟩) _
      (by simpa using hls) h h0 (.inr rfl) hs

theorem step_articulation {a : Articulation} {t : Token} (ht : articulationToken? a = some t)
    {l : Lexeme} (hl : l.token = t) (hc : d.core = .note tone) :
    (r.at d).step l = .ok (r.at { d.articulated a with lastMark := l }) := by
  cases a with
  | normal => cases ht
  | accent =>
    cases ht
    exact step_inflection hc .accent ⟨l, hl⟩
  | staccato =>
    cases ht
    exact step_inflection hc .staccato ⟨l, hl⟩
  | tenuto =>
    cases ht
    exact step_inflection hc .tenuto ⟨l, hl⟩

theorem run_articulationWords {bs : List Articulation} (hbs : .normal ∉ bs) {ls : List Lexeme}
    (hls : ls.map Lexeme.word = articulationWords bs) (h : d.Bears (.note tone) factor shift as) :
    ∃ d', (r.at d).run ls = .ok (r.at d') ∧ d'.Bears (.note tone) factor shift (as ++ bs) := by
  induction bs generalizing d as ls with
  | nil =>
    have : ls = [] := List.map_eq_nil_iff.1 hls
    subst this
    exact ⟨d, rfl, by rw [List.append_nil]; exact h⟩
  | cons b bs ih =>
    obtain ⟨hb, hbs⟩ := not_or.1 (fun hm => hbs (List.mem_cons.2 hm))
    obtain ⟨t, ht⟩ : ∃ t, articulationToken? b = some t := by
      cases b with
      | normal => exact absurd rfl hb
      | _ => exact ⟨_, rfl⟩
    rw [articulationWords, List.filterMap_cons, ht, List.map_cons] at hls
    obtain ⟨l, ls, rfl, hl, hls⟩ := List.map_eq_cons_iff.1 hls
    have hd : ({ d.articulated b with lastMark := l } : Draft).Bears (.note tone) factor shift
        (as ++ [b]) :=
      ⟨h.core, h.factor, h.dots, h.shift, by show d.articulations ++ [b] = _; rw [h.articulations]⟩
    rw [Reading.run_cons (step_articulation ht (Lexeme.word_eq hl).1 h.core), ← List.singleton_append,
      ← List.append_assoc]
    exact ih hbs hls hd

end

end Stave.Score
