import Mathlib.Algebra.Order.BigOperators.Group.List
import Stave.Proofs.Score.Amounts
import Stave.Proofs.Score.Join

/-!
# What marks come to

The marks of an element are taken from left to right, but what they come to is a product, a sum and
a list: the amounts after `@` over those after `/`, times what the dots give; the octaves up less the
octaves down; and the articulations one after another.  So marks may change places, articulations
among themselves apart, and the element stays the same but for its spans.

    factor? ms = some q →
      q.toRat = quotient factors divisors * dotValue dots, all read off ms (toRat_factor?)
    octaveShift ms = the octaves up less the octaves down                  (octaveShift_eq)
    p.node? = some n → n.Totals p.marks                                    (Phrase.totals)
    p.Reordered p' → their nodes have the same bare node                   (Phrase.Reordered.bare_eq)
    accepted elements, all together                                        (marks_multiply)
-/

namespace Stave.Score

/-! ## Amounts -/

/-- The text of the number after `@`, or after `/`. -/
@[simp] def TimeMark.amount? (kind : AmountMark) : TimeMark → Option (List Char)
  | .amount k _ number => if k = kind then some number.val.text else none
  | .dot _ => none

/-- Literals that are the numbers of some marks, those after `@` and those after `/`. -/
structure Amounts (marks : List TimeMark) (factors divisors : List Decimal) : Prop where
  multiplied : factors.map Decimal.text = marks.filterMap (TimeMark.amount? .multiply)
  divided : divisors.map Decimal.text = marks.filterMap (TimeMark.amount? .divide)
  nonneg : ∀ a ∈ factors, 0 ≤ a.value
  pos : ∀ b ∈ divisors, 0 < b.value

/-- The product of some factors over that of some divisors. -/
def quotient (factors divisors : List Decimal) : ℚ :=
  (factors.map Decimal.value).prod / (divisors.map Decimal.value).prod

/-- What some dots multiply by. -/
def dotValue (dots : Nat) : ℚ := 2 - 1 / 2 ^ min dots maxDots

section

variable {ms : List TimeMark} {factors divisors : List Decimal} {q₀ q : Ratio}

/-- One amount, as the literal that it is. -/
theorem literal_of_scale? {kind : AmountMark} {cs : List Char} (h : kind.scale? q₀ cs = some q) :
    ∃ d : Decimal, d.text = cs ∧ kind.Scales q₀.toRat d.value q.toRat := by
  obtain ⟨amount, hamount, hscales⟩ := scale?_iff_scales.1 h
  obtain ⟨d, rfl, -, hvalue⟩ := Ratio.ofDecimal?_eq_some_iff.1 hamount
  exact ⟨d, rfl, hvalue ▸ hscales⟩

/-- Step by step, what is multiplied and divided is the one product over the other. -/
theorem product_of_scale? (h : ms.foldlM TimeMark.scale? q₀ = some q) :
    ∃ factors divisors, Amounts ms factors divisors ∧
      q.toRat = q₀.toRat * quotient factors divisors := by
  induction ms generalizing q₀ with
  | nil =>
    cases h
    exact ⟨[], [], ⟨rfl, rfl, nofun, nofun⟩, by simp [quotient]⟩
  | cons m ms ih =>
    rw [List.foldlM_cons] at h
    obtain ⟨q₁, hfirst, hrest⟩ := Option.bind_eq_some_iff.1 h
    obtain ⟨factors, divisors, ⟨hfactors, hdivisors, hnonneg, hpos⟩, hq⟩ := ih hrest
    cases m with
    | dot symbol =>
      cases hfirst
      exact ⟨factors, divisors, ⟨hfactors, hdivisors, hnonneg, hpos⟩, hq⟩
    | amount kind symbol number =>
      obtain ⟨d, htext, hscales⟩ := literal_of_scale? hfirst
      cases kind with
      | multiply =>
        refine ⟨d :: factors, divisors, ⟨?_, hdivisors, ?_, hpos⟩, ?_⟩
        · simp [hfactors, htext]
        · exact List.forall_mem_cons.2 ⟨hscales.1, hnonneg⟩
        · rw [hq, hscales.2, quotient, quotient, List.map_cons, List.prod_cons]
          ring
      | divide =>
        refine ⟨factors, d :: divisors, ⟨hfactors, ?_, hnonneg, ?_⟩, ?_⟩
        · simp [hdivisors, htext]
        · exact List.forall_mem_cons.2 ⟨hscales.1, hpos⟩
        · rw [hq, hscales.2, quotient, quotient, List.map_cons, List.prod_cons]
          field_simp

theorem toRat_dotFactor? {dots : Nat} (h : dotFactor? dots = some q) : q.toRat = dotValue dots := by
  have hunit : (Nat.pow 2 (min dots maxDots) : ℤ) ≠ 0 := by exact_mod_cast (Nat.two_pow_pos _).ne'
  have hunit' : (2 : ℚ) ^ min dots maxDots ≠ 0 := by positivity
  rw [dotFactor?, Ratio.ofQuotient?_eq_some_iff hunit] at h
  rw [h, dotValue, Nat.pow_eq]
  push_cast
  field_simp

theorem toRat_factor? (h : factor? ms = some q) :
    ∃ factors divisors, Amounts ms factors divisors ∧
      q.toRat = quotient factors divisors * dotValue (ms.countP TimeMark.isDot) := by
  obtain ⟨product, hproduct, h⟩ := Option.bind_eq_some_iff.1 h
  obtain ⟨dots, hdots, h⟩ := Option.bind_eq_some_iff.1 h
  obtain ⟨factors, divisors, hamounts, hquotient⟩ := product_of_scale? hproduct
  refine ⟨factors, divisors, hamounts, ?_⟩
  rw [Ratio.mul?_eq_some_iff.1 h, hquotient, toRat_dotFactor? hdots, Ratio.toRat_one, one_mul]

end

/-! ## Octaves -/

theorem foldl_clamp {octaves : List Int} (hunit : ∀ o ∈ octaves, o.natAbs ≤ 1) {shift : Int}
    (h : shift.natAbs + octaves.length < 2 ^ 31) :
    octaves.foldl (fun shift octave => Width.int32.clamp (shift + octave)) shift =
      shift + octaves.sum := by
  induction octaves generalizing shift with
  | nil => simp
  | cons o octaves ih =>
    have ho := hunit o List.mem_cons_self
    rw [List.length_cons] at h
    have hheld : Width.int32.Holds (shift + o) := by
      simp only [Width.Holds, Width.int32]
      omega
    rw [List.foldl_cons, Width.clamp_of_holds hheld,
      ih (fun x hx => hunit x (List.mem_cons_of_mem o hx)) (by omega), List.sum_cons, add_assoc]

/-- Fewer marks than the ends of 32 bits are away are counted exactly. -/
theorem octaveShift_eq_sum {marks : List NoteMark}
    (h : (marks.filterMap NoteMark.octave?).length < 2 ^ 31) :
    octaveShift marks = (marks.filterMap NoteMark.octave?).sum := by
  have hunit : ∀ o ∈ marks.filterMap NoteMark.octave?, o.natAbs ≤ 1 := by
    intro o ho
    obtain ⟨m, -, hm⟩ := List.mem_filterMap.1 ho
    rcases m with _ | ⟨_ | _ | _ | _ | _, symbol⟩ <;> cases hm <;> decide
  rw [octaveShift, foldl_clamp hunit (by simpa using h), zero_add]

def NoteMark.isUp (m : NoteMark) : Bool := m.octave? = some 1

def NoteMark.isDown (m : NoteMark) : Bool := m.octave? = some (-1)

theorem sum_octaves (marks : List NoteMark) : (marks.filterMap NoteMark.octave?).sum =
    marks.countP NoteMark.isUp - marks.countP NoteMark.isDown := by
  induction marks with
  | nil => rfl
  | cons m marks ih =>
    rw [List.countP_cons, List.countP_cons, List.filterMap_cons]
    rcases m with _ | ⟨_ | _ | _ | _ | _, symbol⟩ <;>
      simp [NoteMark.isUp, NoteMark.isDown, ih] <;> omega

theorem octaveShift_eq {marks : List NoteMark}
    (h : (marks.filterMap NoteMark.octave?).length < 2 ^ 31) :
    octaveShift marks = marks.countP NoteMark.isUp - marks.countP NoteMark.isDown := by
  rw [octaveShift_eq_sum h, sum_octaves]

/-! ## Elements -/

/-- The duration of a note or a rest, the factor of a bracket. -/
def Node.factor? : Node → Option Ratio
  | .sequence _ => none
  | .group _ factor _ => some factor
  | .parallel _ factor _ => some factor
  | .note n => some n.duration
  | .rest r => some r.duration

/-- The node with its duration or factor multiplied, a product that cannot be held being a fault. -/
def Node.times (q : Ratio) : Node → Except RatioFault Node
  | .sequence s => .ok (.sequence s)
  | .group elements factor span => do return .group elements (← factor.mul q) span
  | .parallel voices factor span => do return .parallel voices (← factor.mul q) span
  | .note n => do return .note { n with duration := ← n.duration.mul q }
  | .rest r => do return .rest { r with duration := ← r.duration.mul q }

/-- What marks make of an element.  Octaves are counted up to the ends of 32 bits. -/
structure Node.Totals (n : Node) (marks : List NoteMark) : Prop where
  factor : ∃ q factors divisors, n.factor? = some q ∧
    Amounts (marks.filterMap NoteMark.time?) factors divisors ∧
    q.toRat = quotient factors divisors *
      dotValue ((marks.filterMap NoteMark.time?).countP TimeMark.isDot)
  shift : ∀ note, n = .note note → (marks.filterMap NoteMark.octave?).length < 2 ^ 31 →
    note.octaveShift = marks.countP NoteMark.isUp - marks.countP NoteMark.isDown
  articulations : ∀ note, n = .note note →
    note.articulations = marks.filterMap NoteMark.articulation?

theorem Core.factor?_element (core : Core) (shift : Int) (articulations : List Articulation)
    (factor : Ratio) (span : Span) :
    (core.element shift articulations factor span).factor? = some factor := by
  cases core <;> rfl

theorem Core.totals {core : Core} {span : Span} {marks : List NoteMark} {n : Node}
    (h : core.marked? span marks = some n) : n.Totals marks := by
  obtain ⟨q, hq, hn⟩ := Option.bind_eq_some_iff.1 h
  cases hn
  obtain ⟨factors, divisors, hamounts, hvalue⟩ := toRat_factor? hq
  refine ⟨⟨q, factors, divisors, core.factor?_element .., hamounts, hvalue⟩, ?_, ?_⟩
  · intro note hnote hfew
    cases core <;> cases hnote
    exact octaveShift_eq hfew
  · intro note hnote
    cases core <;> cases hnote
    rfl

/-- An element of duration or factor one can be multiplied by whatever its marks come to. -/
theorem Draft.times_node (d : Draft) (q : Ratio) (span : Span) :
    (d.node 1 span).times q = .ok (d.node q span) := by
  have hmul : Ratio.mul 1 q = .ok q := by rw [Ratio.mul, Ratio.one_mul?, Ratio.orFault]
  obtain ⟨core, _, _, _, _, _, _⟩ := d
  cases core <;> simp only [Draft.node, Node.times, hmul] <;> rfl

/-! ## Phrases -/

/-- The marks of an element; those of a block are all of time. -/
def Phrase.marks : Phrase → List NoteMark
  | .tone _ marks => marks
  | .block _ marks => marks.map .time

def Phrase.unmarked : Phrase → Phrase
  | .tone word _ => .tone word []
  | .block b _ => .block b []

def Phrase.core? : Phrase → Option Core
  | .tone word _ => word.tone?.map .note
  | .block b _ => b.core?

def Phrase.coreSpan : Phrase → Span
  | .tone word _ => word.lexeme.span
  | .block b _ => b.span

theorem Phrase.node?_eq (p : Phrase) : p.node? = p.core?.bind (·.marked? p.coreSpan p.marks) := by
  cases p with
  | tone word marks =>
    rw [Phrase.node?, Phrase.core?]
    cases word.tone? <;> rfl
  | block block marks =>
    rw [Phrase.node?]
    rfl

theorem Phrase.totals {p : Phrase} {n : Node} (h : p.node? = some n) : n.Totals p.marks := by
  rw [Phrase.node?_eq] at h
  obtain ⟨core, -, hn⟩ := Option.bind_eq_some_iff.1 h
  exact Core.totals hn

theorem Phrase.core?_respan {f : Span → Span} (hf : Span.Steady f) (p : Phrase) :
    (p.unmarked.respan f).core? = p.core?.map (Core.respan f) := by
  cases p with
  | tone word marks =>
    have htone : (word.respan f).tone? = word.tone? := by cases word <;> rfl
    rw [Phrase.unmarked, Phrase.respan, Phrase.core?, Phrase.core?, htone]
    cases word.tone? <;> rfl
  | block block marks =>
    rw [Phrase.unmarked, Phrase.respan, Phrase.core?, Phrase.core?, Block.core?_respan hf]

/-! ## Marks in another order -/

/-- All spans the same. -/
def Span.forget : Span → Span := fun _ => default

theorem Span.steady_forget : Span.Steady Span.forget := fun _ _ => rfl

/-- The same element with its marks in another order, articulations among themselves apart, and
wherever its lexemes stand. -/
structure Phrase.Reordered (p p' : Phrase) : Prop where
  unmarked : p.unmarked.respan Span.forget = p'.unmarked.respan Span.forget
  marks : (p.marks.map (NoteMark.respan Span.forget)).Perm
    (p'.marks.map (NoteMark.respan Span.forget))
  articulations : p.marks.filterMap NoteMark.articulation? =
    p'.marks.filterMap NoteMark.articulation?

section

variable {marks marks' : List NoteMark} {ms ms' : List TimeMark} {f : Span → Span}

/-- What is said of each mark alone is said in another order. -/
theorem perm_filterMap {α β : Type} {move : β → β} {field : β → Option α} {xs ys : List β}
    (hfield : ∀ x, field (move x) = field x) (h : (xs.map move).Perm (ys.map move)) :
    (xs.filterMap field).Perm (ys.filterMap field) := by
  rw [← filterMap_moved hfield, ← filterMap_moved hfield ys]
  exact h.filterMap field

theorem amount?_respan (f : Span → Span) (kind : AmountMark) (m : TimeMark) :
    (m.respan f).amount? kind = m.amount? kind := by
  cases m <;> rfl

theorem octaveShift_perm
    (h : (marks.map (NoteMark.respan f)).Perm (marks'.map (NoteMark.respan f)))
    (hfew : (marks.filterMap NoteMark.octave?).length < 2 ^ 31) :
    octaveShift marks = octaveShift marks' := by
  have hperm := perm_filterMap (octave?_respan f) h
  rw [octaveShift_eq_sum hfew, octaveShift_eq_sum (hperm.length_eq ▸ hfew), hperm.sum_eq]

theorem Amounts.quotient_perm {factors divisors factors' divisors' : List Decimal}
    (h : Amounts ms factors divisors) (h' : Amounts ms' factors' divisors')
    (hperm : ∀ kind, (ms.filterMap (TimeMark.amount? kind)).Perm
      (ms'.filterMap (TimeMark.amount? kind))) :
    quotient factors divisors = quotient factors' divisors' := by
  have hfactors : factors.Perm factors' := by
    rw [← List.map_perm_map_iff Decimal.text_injective, h.multiplied, h'.multiplied]
    exact hperm .multiply
  have hdivisors : divisors.Perm divisors' := by
    rw [← List.map_perm_map_iff Decimal.text_injective, h.divided, h'.divided]
    exact hperm .divide
  rw [quotient, quotient, (hfactors.map Decimal.value).prod_eq, (hdivisors.map Decimal.value).prod_eq]

/-- On the way the products may differ, but both ways end at the same one. -/
theorem factor?_perm {q q' : Ratio}
    (h : (ms.map (TimeMark.respan f)).Perm (ms'.map (TimeMark.respan f)))
    (hq : factor? ms = some q) (hq' : factor? ms' = some q') : q = q' := by
  obtain ⟨factors, divisors, hamounts, hvalue⟩ := toRat_factor? hq
  obtain ⟨factors', divisors', hamounts', hvalue'⟩ := toRat_factor? hq'
  have hquotient := hamounts.quotient_perm hamounts' fun kind =>
    perm_filterMap (amount?_respan f kind) h
  refine Ratio.toRat_injective ?_
  rw [hvalue, hvalue', hquotient, ← countP_isDot_respan f ms, h.countP_eq, countP_isDot_respan]

end

/-- Without its spans, an element depends on its core without its spans. -/
theorem Core.bare_element (core : Core) (shift : Int) (articulations : List Articulation)
    (factor : Ratio) (span : Span) : (core.element shift articulations factor span).bare =
      ((core.respan Span.forget).element shift articulations factor default).bare := by
  rw [← Node.bare_respan Span.forget, ← Core.element_respan]
  rfl

theorem Phrase.Reordered.bare_eq {p p' : Phrase} {n n' : Node} (h : p.Reordered p')
    (hfew : (p.marks.filterMap NoteMark.octave?).length < 2 ^ 31) (hn : p.node? = some n)
    (hn' : p'.node? = some n') : n.bare = n'.bare := by
  rw [Phrase.node?_eq] at hn hn'
  obtain ⟨core, hcore, hn⟩ := Option.bind_eq_some_iff.1 hn
  obtain ⟨core', hcore', hn'⟩ := Option.bind_eq_some_iff.1 hn'
  obtain ⟨q, hq, hn⟩ := Option.bind_eq_some_iff.1 hn
  obtain ⟨q', hq', hn'⟩ := Option.bind_eq_some_iff.1 hn'
  cases hn
  cases hn'
  have hsame : core.respan Span.forget = core'.respan Span.forget := by
    have hcores := p.core?_respan Span.steady_forget
    rw [h.unmarked, p'.core?_respan Span.steady_forget, hcore, hcore'] at hcores
    exact (Option.some.inj hcores).symm
  have htimes := h.marks.filterMap NoteMark.time?
  rw [times_respan, times_respan] at htimes
  rw [core.bare_element, core'.bare_element, hsame, octaveShift_perm h.marks hfew,
    h.articulations, factor?_perm htimes hq hq']

/-- The marks of an accepted element come to their product, their sum and their list, whatever stands
between which: the element is what a phrase of the source means, with all the marks that follow, and
has their totals.  So accepted elements that differ in the order of their marks alone, the order of
articulations apart, are the same but for their spans.  Multiplying an element of duration or factor
one by what its marks come to is no fault. -/
theorem marks_multiply :
    (∀ source s, read source = .ok s → ∀ n, s.Has n →
      ∃ (before : List Lexeme) (p : Phrase) (after : List Lexeme),
        tokenize source = .ok (before ++ p.lexemes ++ after) ∧ Markless after ∧
        p.node? = some n ∧ n.Totals p.marks) ∧
    (∀ p p' : Phrase, p.Reordered p' → (p.marks.filterMap NoteMark.octave?).length < 2 ^ 31 →
      ∀ n n', p.node? = some n → p'.node? = some n' → n.bare = n'.bare) ∧
    ∀ (d : Draft) (q : Ratio) (span : Span), (d.node 1 span).times q = .ok (d.node q span) := by
  refine ⟨fun source s h n hn => ?_, fun p p' h hfew n n' => h.bare_eq hfew, Draft.times_node⟩
  obtain ⟨ps, hitems, hps, -⟩ := exists_derivation h
  obtain ⟨before, p, after, hls, hp, hafter⟩ := hn.stands hps
  refine ⟨before, p, after, ?_, hafter, hp, Phrase.totals hp⟩
  rw [tokenize, hitems, mapM_id_map_ok, hls]

/-- A note under its marks, in a group that has marks of its own; and all kinds of marks on a note, in
two orders. -/
theorem marks_multiply_reordered :
    (∃ s n, read "[0, (~ 1@3.^/2_!=^)/2]".toList = .ok s ∧ s.Has n ∧ n.span = ⟨7, 18⟩ ∧
      ∃ (before : List Lexeme) (p : Phrase) (after : List Lexeme),
        tokenize "[0, (~ 1@3.^/2_!=^)/2]".toList = .ok (before ++ p.lexemes ++ after) ∧
        Markless after ∧ p.node? = some n ∧ n.Totals p.marks) ∧
    ∃ p p' : Phrase,
      tokenize "1@3.^/2_!=^".toList = .ok p.lexemes ∧ tokenize "1^/2_!=^@3.".toList = .ok p'.lexemes ∧
      p.Reordered p' ∧ (p.marks.filterMap NoteMark.octave?).length < 2 ^ 31 ∧
      ∃ n n', p.node? = some n ∧ p'.node? = some n' ∧ n.bare = n'.bare := by
  constructor
  · have hnode : ((read "[0, (~ 1@3.^/2_!=^)/2]".toList).toOption.bind fun s =>
        s.elements[0]?.bind fun n => (n.at? [1, 1]).map Node.span) = some ⟨7, 18⟩ := by decide +kernel
    obtain ⟨s, n, hs, hhas, hspan⟩ := exists_node_at hnode
    exact ⟨s, n, hs, hhas, hspan, marks_multiply.1 _ s hs n hhas⟩
  · let lexeme (t : Token) (o : Nat) (text : String) : Lexeme := ⟨t, ⟨o, o + 1⟩, text.toList⟩
    let tone : ToneWord := .degree ⟨lexeme .number 0 "1", rfl⟩
    let times (o : Nat) : List NoteMark :=
      [.time (.amount .multiply ⟨lexeme .multiply o "@", rfl⟩ ⟨lexeme .number (o + 1) "3", rfl⟩),
        .time (.dot ⟨lexeme .dot (o + 2) ".", rfl⟩)]
    let others (o : Nat) : List NoteMark :=
      [.inflection .up ⟨lexeme .up o "^", rfl⟩,
        .time (.amount .divide ⟨lexeme .divide (o + 1) "/", rfl⟩ ⟨lexeme .number (o + 2) "2", rfl⟩),
        .inflection .down ⟨lexeme .down (o + 3) "_", rfl⟩,
        .inflection .accent ⟨lexeme .accent (o + 4) "!", rfl⟩,
        .inflection .tenuto ⟨lexeme .tenuto (o + 5) "=", rfl⟩,
        .inflection .up ⟨lexeme .up (o + 6) "^", rfl⟩]
    let p : Phrase := .tone tone (times 1 ++ others 4)
    let p' : Phrase := .tone tone (others 1 ++ times 8)
    have hmarks : ((times 1 ++ others 4).map (NoteMark.respan Span.forget)).Perm
        ((others 1 ++ times 8).map (NoteMark.respan Span.forget)) := by
      rw [List.map_append, List.map_append]
      exact List.perm_append_comm
    have hreordered : p.Reordered p' := ⟨rfl, hmarks, rfl⟩
    have hfew : (p.marks.filterMap NoteMark.octave?).length < 2 ^ 31 := by
      show 3 < 2 ^ 31
      decide
    obtain ⟨n, hn⟩ : ∃ n, p.node? = some n := Option.isSome_iff_exists.1 (by decide +kernel)
    obtain ⟨n', hn'⟩ : ∃ n, p'.node? = some n := Option.isSome_iff_exists.1 (by decide +kernel)
    exact ⟨p, p', by decide +kernel, by decide +kernel, hreordered, hfew, n, n', hn, hn',
      marks_multiply.2.1 p p' hreordered hfew n n' hn hn'⟩

end Stave.Score
