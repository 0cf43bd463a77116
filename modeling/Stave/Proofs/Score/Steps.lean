import Stave.Proofs.Except
import Stave.Proofs.Ratio
import Stave.Proofs.Score.Grammar

/-!
# The steps of the reader

What each step of the reader can do, said once: which numbers, names and marks it takes and what it
makes of them, how it goes inside a bracket and leaves it again, and how a lexeme that is no mark
ends the element before it.

    kind.scale? duration text = some q ↔ q is the exact product or quotient
                                                               (AmountMark.scale?_eq_some_iff)
    r.mark d l = .ok r' → l is a mark on d, or ends it                     (Reading.mark_cases)
    r.punctuate l = .ok r' → l divides or closes the innermost bracket     (Reading.punctuate_cases)
    r.Rests r0 → r.step l = r0.receive l, for an l that is no mark         (Reading.Rests.step)
-/

namespace Stave.Score

/-! ## Runs -/

def Reading.run (r : Reading) (ls : List Lexeme) : Except ReadFault Reading := ls.foldlM Reading.step r

/-- The first reading is the second one as soon as the marks of its last element end. -/
def Reading.Rests (r r0 : Reading) : Prop :=
  r0.phase = .between ∧ (r = r0 ∨ ∃ d, r.phase = .marks d ∧ r.settle d = .ok r0)

theorem Reading.run_cons {r r' : Reading} {l : Lexeme} (h : r.step l = .ok r') (ls : List Lexeme) :
    r.run (l :: ls) = r'.run ls := by
  rw [run, List.foldlM_cons, h]
  rfl

theorem Reading.run_append {r r' : Reading} {ls : List Lexeme} (h : r.run ls = .ok r')
    (ms : List Lexeme) : r.run (ls ++ ms) = r'.run ms := by
  rw [run] at h
  rw [run, List.foldlM_append, h]
  rfl

/-- The lexemes of a source, read without a fault. -/
theorem foldlM_take (ls : List Lexeme) (r : Reading) :
    (ls.map Except.ok).foldlM Reading.take r = (r.run ls).mapError Fault.read := by
  induction ls generalizing r with
  | nil => rfl
  | cons l ls ih =>
    rw [List.map_cons, List.foldlM_cons, Reading.run, List.foldlM_cons, mapError_bind]
    congr 1
    funext r'
    exact ih r'

/-- What can stop a reader among the items of a source. -/
theorem foldlM_take_error {xs : List Item} {r : Reading} {e : Fault}
    (h : xs.foldlM Reading.take r = .error e) : ∃ (ls : List Lexeme) (r' : Reading) (x : Item)
      (rest : List Item), xs = ls.map .ok ++ x :: rest ∧ r.run ls = .ok r' ∧ r'.take x = .error e := by
  induction xs generalizing r with
  | nil => cases h
  | cons x xs ih =>
    rw [List.foldlM_cons] at h
    rcases bind_eq_error h with hx | ⟨s, hs, hrest⟩
    · exact ⟨[], r, x, xs, rfl, rfl, hx⟩
    · cases x with
      | error stray => cases hs
      | ok l =>
        obtain ⟨ls, r', x, rest, rfl, hrun, htake⟩ := ih hrest
        exact ⟨l :: ls, r', x, rest, rfl, by rw [Reading.run_cons (mapError_eq_ok.1 hs), hrun], htake⟩

theorem foldlM_take_ok {xs : List Item} {r r' : Reading} (h : xs.foldlM Reading.take r = .ok r') :
    ∃ ls : List Lexeme, xs = ls.map .ok ∧ r.run ls = .ok r' := by
  induction xs generalizing r with
  | nil =>
    cases h
    exact ⟨[], rfl, rfl⟩
  | cons x xs ih =>
    rw [List.foldlM_cons] at h
    obtain ⟨s, hs, hrest⟩ := bind_eq_ok h
    cases x with
    | error stray => cases hs
    | ok l =>
      obtain ⟨ls, rfl, hrun⟩ := ih hrest
      exact ⟨l :: ls, rfl, by rw [Reading.run_cons (mapError_eq_ok.1 hs), hrun]⟩

theorem Reading.Rests.step {r r0 : Reading} (h : r.Rests r0) {l : Lexeme} (hl : l.token.isMark = false) :
    r.step l = r0.receive l := by
  obtain ⟨h0, rfl | ⟨d, hp, hd⟩⟩ := h
  · unfold Reading.step
    rw [h0]
  · unfold Reading.step
    rw [hp]
    show r.mark d l = _
    unfold Reading.mark
    split <;> first
      | next ht => rw [ht] at hl; cases hl
      | rw [hd]; rfl

theorem Reading.Rests.finish {r r0 : Reading} (h : r.Rests r0) (length : Nat) :
    r.finish length = r0.close length := by
  obtain ⟨h0, rfl | ⟨d, hp, hd⟩⟩ := h
  · unfold Reading.finish
    rw [h0]
  · unfold Reading.finish
    rw [hp]
    show (do (← r.settle d).close length) = _
    rw [hd]
    rfl

/-! ## Tones -/

theorem degreeOf_eq_ok_iff {l : Lexeme} {n : Int} : degreeOf l = .ok n ↔
    (if l.text.contains '.' then none else Numeral.integer? .int64 l.text) = some n := by
  unfold degreeOf
  split
  · simp
  · cases Numeral.integer? .int64 l.text <;> simp

theorem nameOf_eq_ok_iff {l : Lexeme} {name : NoteName} :
    nameOf l = .ok name ↔ NoteName.read? l.text = some name := by
  unfold nameOf
  cases NoteName.read? l.text <;> simp

/-- A word begins a note if it names a tone, and for no other reason. -/
theorem ToneWord.receive_iff (w : ToneWord) {r r' : Reading} : r.receive w.lexeme = .ok r' ↔
    ∃ tone, w.tone? = some tone ∧ r' = r.draw (.note tone) w.lexeme.span := by
  rcases w with ⟨l, hl⟩ | ⟨l, hl⟩
  · have hreceive : r.receive l = do return r.draw (.note (.degree (← degreeOf l))) l.span := by
      rw [Reading.receive, hl]
    have htone : ToneWord.tone? (.degree ⟨l, hl⟩) =
        (if l.text.contains '.' then none else Numeral.integer? .int64 l.text).map .degree := by
      rw [ToneWord.tone?]
      split <;> rfl
    show r.receive l = _ ↔ ∃ tone, _ ∧ r' = r.draw (.note tone) l.span
    rw [hreceive, bind_pure_eq_ok_iff, htone]
    simp only [degreeOf_eq_ok_iff, Option.map_eq_some_iff, exists_exists_and_eq_and]
  · have hreceive : r.receive l = do return r.draw (.note (.named (← nameOf l))) l.span := by
      rw [Reading.receive, hl]
    show r.receive l = _ ↔ ∃ tone, _ ∧ r' = r.draw (.note tone) l.span
    rw [hreceive, bind_pure_eq_ok_iff, ToneWord.tone?]
    simp only [nameOf_eq_ok_iff, Option.map_eq_some_iff, exists_exists_and_eq_and]

/-! ## Marks -/

/-- An amount scales a duration exactly, or not at all. -/
theorem AmountMark.scale?_eq_some_iff {kind : AmountMark} {duration q : Ratio} {cs : List Char} :
    kind.scale? duration cs = some q ↔ ∃ amount, Ratio.ofDecimal? cs = some amount ∧
      match kind with
      | .multiply => 0 ≤ amount ∧ q.toRat = duration.toRat * amount.toRat
      | .divide => 0 < amount ∧ q.toRat = duration.toRat / amount.toRat := by
  refine Option.bind_eq_some_iff.trans (exists_congr fun amount => and_congr_right fun _ => ?_)
  cases kind with
  | multiply =>
    refine Option.ite_none_right_eq_some.trans (and_congr_right fun _ => ?_)
    exact Ratio.mul?_eq_some_iff
  | divide =>
    refine Option.ite_none_right_eq_some.trans (and_congr_right fun hpos => ?_)
    exact Ratio.div?_eq_some_iff (Ratio.toRat_pos.2 hpos).ne'

theorem AmountMark.scale?_nonneg {kind : AmountMark} {duration q : Ratio} {cs : List Char}
    (h : 0 ≤ duration) (hq : kind.scale? duration cs = some q) : 0 ≤ q := by
  rw [← Ratio.toRat_nonneg] at h ⊢
  obtain ⟨amount, -, hamount⟩ := AmountMark.scale?_eq_some_iff.1 hq
  cases kind with
  | multiply =>
    rw [hamount.2]
    exact mul_nonneg h (Ratio.toRat_nonneg.2 hamount.1)
  | divide =>
    rw [hamount.2]
    exact div_nonneg h (Ratio.toRat_pos.2 hamount.1).le

/-- A number is taken if the grammar lets it scale the duration, and for no other reason. -/
theorem Draft.measure_eq_ok_iff {d d' : Draft} {kind : AmountMark} {l : Lexeme} :
    d.measure kind l = .ok d' ↔ l.token = .number ∧
      ∃ q, kind.scale? d.factor l.text = some q ∧ d' = { d with factor := q, lastMark := l } := by
  unfold Draft.measure AmountMark.scale?
  by_cases ht : l.token = .number
  · cases ha : Ratio.ofDecimal? l.text with
    | none => simp [ht]
    | some amount =>
      cases kind with
      | multiply =>
        have hsign : amount.isNegative = true ↔ ¬ 0 ≤ amount := Ratio.isNegative_iff amount
        by_cases h0 : 0 ≤ amount
        · cases hq : d.factor.mul? amount <;> simp [ht, hsign, h0, hq, eq_comm]
        · simp [ht, hsign, h0]
      | divide =>
        by_cases h0 : 0 < amount
        · have hsign := (Ratio.zero_lt_iff amount).1 h0
          cases hq : d.factor.div? amount <;> simp [ht, hsign, h0, hq, eq_comm]
        · have hsign := not_not.1 (mt (Ratio.zero_lt_iff amount).2 h0)
          simp [ht, hsign, h0]
  · simp [ht]

/-- What a draft makes of a mark that only notes bear. -/
def Inflection.change : Inflection → Draft → Draft
  | .up, d => d.shifted 1
  | .down, d => d.shifted (-1)
  | .accent, d => d.articulated .accent
  | .staccato, d => d.articulated .staccato
  | .tenuto, d => d.articulated .tenuto

theorem Draft.inflect_eq_ok_iff {d d' : Draft} {l : Lexeme} {change : Draft → Draft} :
    d.inflect l change = .ok d' ↔
      (∃ tone, d.core = .note tone) ∧ d' = { change d with lastMark := l } := by
  unfold Draft.inflect
  cases d.core <;> simp [eq_comm]

/-- Reading at the marks of an element. -/
def Reading.at (r : Reading) (d : Draft) : Reading := { r with phase := .marks d }

section

variable {r r' : Reading} {d : Draft} {l : Lexeme}

theorem step_amount (kind : AmountMark) (symbol : Terminal kind.token) :
    (r.at d).step symbol = .ok { r with phase := .amount d kind } := by
  show (r.at d).mark d symbol = _
  cases kind <;> simp only [Reading.mark, symbol.2, AmountMark.token] <;> rfl

theorem step_number (kind : AmountMark) (l : Lexeme) {d' : Draft} (h : d.measure kind l = .ok d') :
    ({ r with phase := .amount d kind } : Reading).step l = .ok (r.at d') := by
  show (do return Reading.at _ (← d.measure kind l)) = _
  rw [h]
  rfl

theorem step_dot (symbol : Terminal .dot) :
    (r.at d).step symbol = .ok (r.at (d.dotted symbol)) := by
  show (r.at d).mark d symbol = _
  simp only [Reading.mark, symbol.2]
  rfl

theorem step_inflection {tone : Tone} (hc : d.core = .note tone) (kind : Inflection)
    (symbol : Terminal kind.token) :
    (r.at d).step symbol = .ok (r.at { kind.change d with lastMark := symbol.val }) := by
  show (r.at d).mark d symbol = _
  cases kind <;>
  · simp only [Reading.mark, symbol.2, Inflection.token, Draft.inflect, hc]
    rfl

theorem Reading.settle_between (hr : r.settle d = .ok r') : r'.phase = .between := by
  obtain ⟨n, -, rfl⟩ := bind_pure_eq_ok hr
  rfl

/-- All that a lexeme after an element can do. -/
theorem Reading.mark_cases (hr : r.mark d l = .ok r') :
    (∃ kind : AmountMark, l.token = kind.token ∧ r' = { r with phase := .amount d kind }) ∨
      (l.token = .dot ∧ r' = r.at (d.dotted l)) ∨
      (∃ kind : Inflection, l.token = kind.token ∧ (∃ tone, d.core = .note tone) ∧
        r' = r.at { kind.change d with lastMark := l }) ∨
      ∃ s, r.settle d = .ok s ∧ s.receive l = .ok r' := by
  have inflected : ∀ kind : Inflection, l.token = kind.token →
      (do return r.at (← d.inflect l kind.change)) = Except.ok r' →
      ∃ kind : Inflection, l.token = kind.token ∧ (∃ tone, d.core = .note tone) ∧
        r' = r.at { kind.change d with lastMark := l } := by
    intro kind htoken hr
    obtain ⟨d', hd', rfl⟩ := bind_pure_eq_ok hr
    obtain ⟨hnote, rfl⟩ := Draft.inflect_eq_ok_iff.1 hd'
    exact ⟨kind, htoken, hnote, rfl⟩
  unfold Reading.mark at hr
  simp only at hr
  split at hr
  · next htoken =>
    cases hr
    exact .inl ⟨.multiply, htoken, rfl⟩
  · next htoken =>
    cases hr
    exact .inl ⟨.divide, htoken, rfl⟩
  · next htoken =>
    cases hr
    exact .inr (.inl ⟨htoken, rfl⟩)
  · next htoken => exact .inr (.inr (.inl (inflected .up htoken hr)))
  · next htoken => exact .inr (.inr (.inl (inflected .down htoken hr)))
  · next htoken => exact .inr (.inr (.inl (inflected .accent htoken hr)))
  · next htoken => exact .inr (.inr (.inl (inflected .staccato htoken hr)))
  · next htoken => exact .inr (.inr (.inl (inflected .tenuto htoken hr)))
  · exact .inr (.inr (.inr (bind_eq_ok hr)))

end

/-! ## Brackets -/

theorem voiceOf?_reverse (first : Node) (others : List Node) :
    voiceOf? (first :: others).reverse = some (voice first others) := by
  induction others using List.reverseRecOn with
  | nil => rfl
  | append_singleton before last _ =>
    rw [← List.cons_append, List.reverse_concat]
    simp [voiceOf?, voice]

/-- A reading inside a bracket, at rest. -/
def Reading.inside (r0 : Reading) (b : Bracket) (opened : Span) (here : List Node) : Reading :=
  { outer := ⟨b, opened, r0.here⟩ :: r0.outer, here, phase := .between }

theorem Reading.Rests.open_step {r r0 : Reading} (h : r.Rests r0) {l : Lexeme} :
    (l.token = .openGroup → r.step l = .ok (r0.inside .group l.span [])) ∧
      (l.token = .openParallel → r.step l = .ok (r0.inside (.parallel []) l.span [])) := by
  refine ⟨fun ht => ?_, fun ht => ?_⟩ <;>
  · rw [h.step (by rw [ht]; rfl), Reading.receive, ht]
    rfl

theorem Reading.rests_inside (r0 : Reading) (b : Bracket) (opened : Span) (here : List Node) :
    (r0.inside b opened here).Rests (r0.inside b opened here) :=
  ⟨rfl, .inl rfl⟩

/-- All that a lexeme can do where no element is under way. -/
theorem Reading.receive_cases {r r' : Reading} {l : Lexeme} (hr : r.receive l = .ok r') :
    (∃ (w : ToneWord) (tone : Tone), w.lexeme = l ∧ w.tone? = some tone ∧
        r' = r.draw (.note tone) l.span) ∨
      (l.token = .rest ∧ r' = r.draw .rest l.span) ∨
      (l.token = .openGroup ∧ r' = r.enter .group l.span) ∨
      (l.token = .openParallel ∧ r' = r.enter (.parallel []) l.span) ∨ r.punctuate l = .ok r' := by
  have toned : ∀ w : ToneWord, w.lexeme = l → ∃ (w : ToneWord) (tone : Tone), w.lexeme = l ∧
      w.tone? = some tone ∧ r' = r.draw (.note tone) l.span := by
    rintro w rfl
    obtain ⟨tone, htone, hdraw⟩ := w.receive_iff.1 hr
    exact ⟨w, tone, rfl, htone, hdraw⟩
  have hr' := hr
  unfold Reading.receive at hr'
  split at hr'
  · next htoken => exact .inl (toned (.degree ⟨l, htoken⟩) rfl)
  · next htoken => exact .inl (toned (.name ⟨l, htoken⟩) rfl)
  · next htoken =>
    cases hr'
    exact .inr (.inl ⟨htoken, rfl⟩)
  · next htoken =>
    cases hr'
    exact .inr (.inr (.inl ⟨htoken, rfl⟩))
  · next htoken =>
    cases hr'
    exact .inr (.inr (.inr (.inl ⟨htoken, rfl⟩)))
  · exact .inr (.inr (.inr (.inr hr')))

section

variable {r0 : Reading} {opened : Span} {vs : List Sequence} {first : Node} {others : List Node}

theorem receive_closeGroup (closed : Terminal .closeGroup) :
    (r0.inside .group opened (first :: others).reverse).receive closed =
      .ok (r0.draw (.group (first :: others)) (opened.merge closed.val.span)) := by
  cases h : (first :: others).reverse with
  | nil => simp at h
  | cons last before =>
    rw [← List.reverse_reverse (first :: others), h]
    simp only [Reading.receive, Reading.punctuate, Reading.inside, closed.2]
    rfl

theorem receive_comma (comma : Terminal .comma) :
    (r0.inside (.parallel vs) opened (first :: others).reverse).receive comma =
      .ok (r0.inside (.parallel (voice first others :: vs)) opened []) := by
  simp only [Reading.receive, Reading.punctuate, Reading.inside, comma.2, voiceOf?_reverse]

theorem receive_closeParallel (closed : Terminal .closeParallel) :
    (r0.inside (.parallel vs) opened (first :: others).reverse).receive closed =
      .ok (r0.draw (.parallel (voice first others :: vs).reverse) (opened.merge closed.val.span)) := by
  simp only [Reading.receive, Reading.punctuate, Reading.inside, closed.2, voiceOf?_reverse]
  rfl

end

theorem exists_reverse_of_cons (n : Node) (ns : List Node) :
    ∃ first others, n :: ns = (first :: others).reverse := by
  obtain ⟨first, others, h⟩ := List.exists_cons_of_ne_nil (l := (n :: ns).reverse) (by simp)
  exact ⟨first, others, by rw [← h, List.reverse_reverse]⟩

/-- All that a comma or a closing bracket can do. -/
theorem Reading.punctuate_cases {r r' : Reading} {l : Lexeme} (hp : r.phase = .between)
    (hr : r.punctuate l = .ok r') : ∃ (r0 : Reading) (opened : Span) (first : Node) (others : List Node),
      (l.token = .closeGroup ∧ r = r0.inside .group opened (first :: others).reverse ∧
        r' = r0.draw (.group (first :: others)) (opened.merge l.span)) ∨
      ∃ vs, r = r0.inside (.parallel vs) opened (first :: others).reverse ∧
        (l.token = .comma ∧ r' = r0.inside (.parallel (voice first others :: vs)) opened [] ∨
          l.token = .closeParallel ∧
            r' = r0.draw (.parallel (voice first others :: vs).reverse) (opened.merge l.span)) := by
  obtain ⟨outer, here, phase⟩ := r
  obtain rfl : phase = .between := hp
  unfold Reading.punctuate at hr
  split at hr
  · cases hr
  · next opened before levels houter =>
    obtain rfl : outer = _ := houter
    split at hr
    · cases hr
    · next htoken =>
      split at hr
      · cases hr
      · next last rest hhere =>
        obtain ⟨first, others, hothers⟩ := exists_reverse_of_cons last rest
        obtain rfl : here = _ := hhere.trans hothers
        cases hr
        refine ⟨⟨levels, before, .between⟩, opened, first, others, .inl ⟨not_not.1 htoken, rfl, ?_⟩⟩
        rw [List.reverse_reverse]
  · next vs opened before levels houter =>
    obtain rfl : outer = _ := houter
    split at hr
    · cases hr
    · next v hv =>
      cases here with
      | nil => cases hv
      | cons last rest =>
        obtain ⟨first, others, hothers⟩ := exists_reverse_of_cons last rest
        rw [hothers] at hv ⊢
        rw [voiceOf?_reverse] at hv
        cases hv
        refine ⟨⟨levels, before, .between⟩, opened, first, others, .inr ⟨vs, rfl, ?_⟩⟩
        split at hr
        · next htoken =>
          cases hr
          exact .inl ⟨htoken, rfl⟩
        · next htoken =>
          cases hr
          exact .inr ⟨htoken, rfl⟩
        · cases hr

end Stave.Score
