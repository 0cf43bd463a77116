import Stave.Proofs.Score.Derive
import Stave.Proofs.Score.Reread
import Stave.Proofs.Score.Seam

/-!
# The place of a fault

Whatever has been read without a fault can be completed: an element that takes no time makes up for
what is missing, and then every open bracket is closed.  A fault blames the lexeme at which it is
found or one that was read before it.  So what stands before the place of a fault is the beginning
of some score, and no fault blames a place behind the first mistake.

    r.Completes r.completion                                              (Reading.completes)
    r.step l = .error f → f blames l or a lexeme read before it           (Reading.Recalls.step_error)
    read source = .error e →
      what stands before e.offset can be completed                        (viable_prefix)
-/

namespace Stave.Score

open Stave.Text

/-! ## Completion -/

/-- Words that, wherever they stand, make a score of what has been read. -/
def Reading.Completes (r : Reading) (ws : List Word) : Prop :=
  ∀ ls : List Lexeme, ls.map Lexeme.word = ws → ∀ length,
    ∃ s, (do (← r.run ls).finish length) = Except.ok s

def Bracket.closer : Bracket → Token
  | .group => .closeGroup
  | .parallel _ => .closeParallel

/-- The words that close brackets, innermost first. -/
def closers (levels : List Level) : List Word := levels.map fun level => level.bracket.closer.word

/-- Words that begin an element, or end the one under way so that it takes no time. -/
def Phase.completion : Phase → List Word
  | .between => [numberWord 0]
  | .marks _ => [Token.multiply.word, numberWord 0]
  | .amount _ .multiply => [numberWord 0]
  | .amount _ .divide => [numberWord 1, Token.multiply.word, numberWord 0]

def Reading.completion (r : Reading) : List Word := r.phase.completion ++ closers r.outer

section

variable {r r0 r' : Reading} {d : Draft} {vs : List Word}

theorem Reading.Completes.append (ws : List Word)
    (h : ∀ ls : List Lexeme, ls.map Lexeme.word = ws → ∃ r', r.run ls = .ok r' ∧ r'.Completes vs) :
    r.Completes (ws ++ vs) := by
  intro ls hls length
  obtain ⟨ls, ms, rfl, hws, hvs⟩ := List.map_eq_append_iff.1 hls
  obtain ⟨r', hrun, hrest⟩ := h ls hws
  rw [Reading.run_append hrun]
  exact hrest ms hvs length

/-- An element without marks can be sealed. -/
theorem rests_draw (r0 : Reading) (hr : r0.phase = .between) (core : Core) (span : Span) :
    ∃ n, (r0.draw core span).Rests { r0 with here := n :: r0.here } :=
  ⟨_, hr, .inr ⟨{ core, span }, rfl, congrArg Except.ok (by rw [← hr]; rfl)⟩⟩

theorem completes_closers (hr : r.Rests r0) (hsome : r0.here ≠ []) :
    r.Completes (closers r0.outer) := by
  obtain ⟨outer, here, phase⟩ := r0
  obtain rfl : phase = .between := hr.1
  induction outer generalizing r here with
  | nil =>
    intro ls hls length
    rw [List.map_eq_nil_iff.1 hls]
    exact ⟨_, hr.finish length⟩
  | cons level outer ih =>
    obtain ⟨b, opened, before⟩ := level
    obtain ⟨n, ns, rfl⟩ := List.exists_cons_of_ne_nil hsome
    obtain ⟨first, others, hothers⟩ := exists_reverse_of_cons n ns
    rw [hothers] at hr
    change r.Rests (Reading.inside { outer, here := before } b opened (first :: others).reverse) at hr
    refine .append [b.closer.word] fun ls hls => ?_
    obtain ⟨l, rfl, hl⟩ := List.map_eq_singleton_iff.1 hls
    have htoken := (Lexeme.word_eq hl).1
    -- the bracket becomes an element of the level around it
    obtain ⟨core, span, hstep⟩ : ∃ core span, r.step l =
        .ok (({ outer, here := before } : Reading).draw core span) := by
      cases b with
      | group =>
        exact ⟨_, _, (hr.step (by rw [htoken]; rfl)).trans (receive_closeGroup ⟨l, htoken⟩)⟩
      | parallel vs =>
        exact ⟨_, _, (hr.step (by rw [htoken]; rfl)).trans (receive_closeParallel ⟨l, htoken⟩)⟩
    obtain ⟨m, hm⟩ := rests_draw { outer, here := before } rfl core span
    exact ⟨_, by rw [Reading.run_cons hstep]; rfl, ih _ hm (List.cons_ne_nil _ _)⟩

theorem dotFactor?_isSome (dots : Nat) : (dotFactor? dots).isSome := by
  have hbounded : ∀ n : Fin (maxDots + 1),
      (Ratio.ofQuotient? (2 * (Nat.pow 2 n : Nat) - 1) (Nat.pow 2 n : Nat)).isSome := by decide +kernel
  exact hbounded ⟨min dots maxDots, by omega⟩

/-- No number of dots spoils an element that takes no time. -/
theorem rests_zero (hr : r.phase = .between) (hd : d.factor = 0) :
    ∃ n, (r.at d).Rests { r with here := n :: r.here } := by
  obtain ⟨q, hq⟩ := Option.isSome_iff_exists.1 (dotFactor?_isSome d.dots)
  have hzero : (dotFactor? d.dots).bind d.factor.mul? = some 0 := by
    rw [hq, hd]
    refine Ratio.mul?_eq_some_iff.2 ?_
    rw [Ratio.toRat_zero, zero_mul]
  obtain ⟨n, hn⟩ : ∃ n, d.sealed = .ok n := by
    unfold Draft.sealed
    split
    · exact ⟨_, rfl⟩
    · rw [hzero]
      exact ⟨_, rfl⟩
  refine ⟨n, hr, .inr ⟨d, rfl, ?_⟩⟩
  show (do return { r.at d with here := (← d.sealed) :: r.here, phase := .between }) = _
  rw [hn, ← hr]
  rfl

theorem measure_zero {l : Lexeme} (hl : l.word = numberWord 0) :
    d.measure .multiply l = .ok { d with factor := 0, lastMark := l } := by
  refine measure_numberWord hl (le_refl 0) (by decide) ?_
  refine Ratio.mul?_eq_some_iff.2 ?_
  rw [Ratio.toRat_zero, Ratio.toRat_ofInt, Int.cast_zero, mul_zero]

theorem measure_one {l : Lexeme} (hl : l.word = numberWord 1) :
    d.measure .divide l = .ok { d with lastMark := l } := by
  refine measure_numberWord (q := d.factor) hl Int.one_nonneg (by decide) ⟨Int.one_pos, ?_⟩
  rw [Ratio.div?_eq_some_iff (by rw [Ratio.toRat_ofInt]; norm_num), Ratio.toRat_ofInt, Int.cast_one,
    div_one]

end

/-- Under `@0` an element takes no time, whatever its marks were before. -/
theorem run_timeless (r : Reading) (hr : r.phase = .between) (d : Draft) {ls : List Lexeme}
    (hls : ls.map Lexeme.word = [Token.multiply.word, numberWord 0]) :
    ∃ r' n, (r.at d).run ls = .ok r' ∧ r'.Rests { r with here := n :: r.here } := by
  obtain ⟨l, m, rfl, hl, hm⟩ := map_word_eq_pair hls
  have hrun := run_amount (r := r) (m := .multiply) (Lexeme.word_eq hl).1 (measure_zero (d := d) hm)
  obtain ⟨n, hn⟩ := rests_zero hr (d := { d with factor := 0, lastMark := m }) rfl
  exact ⟨_, n, hrun, hn⟩

theorem Reading.run_completion (r : Reading) {ls : List Lexeme}
    (hls : ls.map Lexeme.word = r.phase.completion) :
    ∃ r' n, r.run ls = .ok r' ∧ r'.Rests { r with here := n :: r.here, phase := .between } := by
  obtain ⟨outer, here, _ | d | ⟨d, _ | _⟩⟩ := r
  · obtain ⟨l, rfl, hl⟩ := List.map_eq_singleton_iff.1 hls
    have hstep : Reading.step ⟨outer, here, .between⟩ l = _ :=
      receive_tone (t := .degree 0) (show Width.int64.Holds 0 by decide) hl
    obtain ⟨n, hn⟩ := rests_draw ⟨outer, here, .between⟩ rfl (.note (.degree 0)) l.span
    exact ⟨_, n, by rw [Reading.run_cons hstep]; rfl, hn⟩
  · exact run_timeless ⟨outer, here, .between⟩ rfl d hls
  · obtain ⟨l, rfl, hl⟩ := List.map_eq_singleton_iff.1 hls
    have hstep := step_number (r := ⟨outer, here, .between⟩) .multiply l (measure_zero (d := d) hl)
    obtain ⟨n, hn⟩ := rests_zero (r := ⟨outer, here, .between⟩) rfl
      (d := { d with factor := 0, lastMark := l }) rfl
    exact ⟨_, n, by rw [Reading.run_cons hstep]; rfl, hn⟩
  · obtain ⟨l, ls, rfl, hl, hls⟩ := List.map_eq_cons_iff.1 hls
    have hstep := step_number (r := ⟨outer, here, .between⟩) .divide l (measure_one (d := d) hl)
    obtain ⟨r', n, hrun, hn⟩ := run_timeless ⟨outer, here, .between⟩ rfl _ hls
    exact ⟨r', n, by rw [Reading.run_cons hstep, hrun], hn⟩

theorem Reading.completes (r : Reading) : r.Completes r.completion := by
  refine .append _ fun ls hls => ?_
  obtain ⟨r', n, hrun, hr'⟩ := r.run_completion hls
  have hclose := completes_closers hr' (List.cons_ne_nil _ _)
  exact ⟨r', hrun, hclose⟩

/-! ## The text of a completion -/

def wordsText (ws : List Word) : List Char := ws.flatMap Prod.snd

/-- Text that is cut into its words, and that no number or name before it swallows. -/
structure Apart (ws : List Word) : Prop where
  cuts : Cuts (wordsText ws) ws Stops
  stops : Stops (wordsText ws)

theorem apart_symbol {ws : List Word} (h : Cuts (wordsText ws) ws Stops) {t : Token} {c : Char}
    (ht : t.symbol? = some c) (hc : c ≠ '/') (hjoins : joins c = false) : Apart (t.word :: ws) := by
  have htext : wordsText (t.word :: ws) = c :: wordsText ws := by
    rw [wordsText, List.flatMap_cons, Token.word, ht]
    rfl
  constructor
  · rw [htext]
    exact cuts_symbol_append ht hc h
  · rw [htext]
    exact stops_of_head hjoins

theorem Apart.cuts_number {ws : List Word} (h : Apart ws) (n : Int) :
    Cuts (wordsText (numberWord n :: ws)) (numberWord n :: ws) Stops :=
  (cuts_numberWord n).append h.cuts fun _ hrest => h.stops.append hrest

theorem apart_closers (levels : List Level) : Apart (closers levels) := by
  induction levels with
  | nil => exact ⟨.nil _, nofun⟩
  | cons level levels ih =>
    obtain ⟨_ | vs, opened, before⟩ := level
    · exact apart_symbol (t := .closeGroup) ih.cuts rfl (by decide) rfl
    · exact apart_symbol (t := .closeParallel) ih.cuts rfl (by decide) rfl

theorem Reading.cuts_completion (r : Reading) :
    Cuts (wordsText r.completion) r.completion Stops := by
  have hzero := (apart_closers r.outer).cuts_number 0
  have htimeless := apart_symbol (t := .multiply) hzero rfl (by decide) rfl
  obtain ⟨outer, here, _ | d | ⟨d, _ | _⟩⟩ := r
  · exact hzero
  · exact htimeless.cuts
  · exact hzero
  · exact htimeless.cuts_number 1

/-- A source that has been read as far as it goes is the beginning of one that is read. -/
theorem exists_completion {source : List Char} {ls : List Lexeme} {o : Nat} {r : Reading}
    (hrun : ({} : Reading).run ls = .ok r)
    (hitems : ∀ d, Quiet d → items (source ++ d) = ls.map .ok ++ itemsFrom o d) :
    ∃ t s, read (source ++ t) = .ok s := by
  obtain ⟨ms, hwords, hcut⟩ := r.cuts_completion [] nofun (o + byteLength ['\n'])
  rw [List.append_nil, itemsFrom_nil, List.append_nil] at hcut
  have hall : items (source ++ '\n' :: wordsText r.completion) = (ls ++ ms).map .ok := by
    rw [hitems _ (quiet_newline _), itemsFrom_blank rfl, hcut, List.map_append]
  obtain ⟨s, hs⟩ := r.completes ms hwords (byteLength (source ++ '\n' :: wordsText r.completion))
  refine ⟨'\n' :: wordsText r.completion, s, ?_⟩
  rw [read_of_items hall, Reading.run_append hrun, hs]
  rfl

/-! ## What a fault blames -/

section

variable {r r' : Reading} {d : Draft} {l : Lexeme} {f : ReadFault}

theorem degreeOf_error (h : degreeOf l = .error f) : f.span = l.span := by
  unfold degreeOf at h
  split at h
  · cases h
    rfl
  · split at h <;> cases h
    rfl

theorem nameOf_error (h : nameOf l = .error f) : f.span = l.span := by
  unfold nameOf at h
  split at h <;> cases h
  rfl

theorem Reading.punctuate_error (h : r.punctuate l = .error f) : f.span = l.span := by
  unfold Reading.punctuate at h
  split at h
  · cases h
    rfl
  · split at h
    · cases h
      rfl
    · split at h <;> cases h
      rfl
  · split at h
    · cases h
      rfl
    · split at h <;> cases h
      rfl

theorem Reading.receive_error (h : r.receive l = .error f) : f.span = l.span := by
  unfold Reading.receive at h
  split at h
  · exact degreeOf_error (bind_pure_eq_error h)
  · exact nameOf_error (bind_pure_eq_error h)
  · cases h
  · cases h
  · cases h
  · exact punctuate_error h

theorem Draft.measure_error {kind : AmountMark} (h : d.measure kind l = .error f) :
    f.span = l.span := by
  unfold Draft.measure at h
  split at h
  · cases h
    rfl
  · split at h
    · cases h
      rfl
    · next amount _ =>
      cases kind with
      | multiply =>
        dsimp only at h
        split at h
        · cases h
          rfl
        · split at h <;> cases h
          rfl
      | divide =>
        dsimp only at h
        split at h
        · cases h
          rfl
        · split at h <;> cases h
          rfl

theorem Draft.inflect_error {change : Draft → Draft} (h : d.inflect l change = .error f) :
    f.span = l.span := by
  unfold Draft.inflect at h
  split at h <;> cases h <;> rfl

theorem Draft.sealed_error (h : d.sealed = .error f) : ∃ m ∈ d.lastMark, f.span = m.span := by
  unfold Draft.sealed at h
  split at h
  · cases h
  · next m hm =>
    split at h <;> cases h
    exact ⟨m, hm, rfl⟩

theorem Reading.settle_error (h : r.settle d = .error f) : ∃ m ∈ d.lastMark, f.span = m.span :=
  d.sealed_error (bind_pure_eq_error h)

theorem Reading.mark_error (h : r.mark d l = .error f) :
    f.span = l.span ∨ ∃ m ∈ d.lastMark, f.span = m.span := by
  have inflected : ∀ change : Draft → Draft,
      (do return r.at (← d.inflect l change)) = Except.error f → f.span = l.span :=
    fun change h => d.inflect_error (bind_pure_eq_error h)
  unfold Reading.mark at h
  simp only at h
  split at h
  · cases h
  · cases h
  · cases h
  · exact .inl (inflected _ h)
  · exact .inl (inflected _ h)
  · exact .inl (inflected _ h)
  · exact .inl (inflected _ h)
  · exact .inl (inflected _ h)
  · rcases bind_eq_error h with hsettle | ⟨s, -, h⟩
    · exact .inr (settle_error hsettle)
    · exact .inl (receive_error h)

/-! ## What a reading recalls -/

def Phase.draft? : Phase → Option Draft
  | .between => none
  | .marks d => some d
  | .amount d _ => some d

/-- Every place that a reading may still blame is that of a lexeme it has read. -/
structure Reading.Recalls (r : Reading) (ls : List Lexeme) : Prop where
  opened : ∀ level ∈ r.outer, ∃ m ∈ ls, level.opened = m.span
  lastMark : ∀ d ∈ r.phase.draft?, ∀ m ∈ d.lastMark, m ∈ ls

namespace Reading.Recalls

variable {ls : List Lexeme}

theorem step_error (h : r.Recalls ls) (hf : r.step l = .error f) :
    f.span = l.span ∨ ∃ m ∈ ls, f.span = m.span := by
  unfold Reading.step at hf
  split at hf
  · exact .inl (receive_error hf)
  · next d hp =>
    rcases mark_error hf with hl | ⟨m, hm, hspan⟩
    · exact .inl hl
    · exact .inr ⟨m, h.lastMark d (by rw [hp]; rfl) m hm, hspan⟩
  · exact .inl (Draft.measure_error (bind_pure_eq_error hf))

theorem close_error (h : r.Recalls ls) {length : Nat} (hf : r.close length = .error f) :
    ∃ m ∈ ls, f.span = m.span := by
  unfold Reading.close at hf
  split at hf
  · cases hf
  · next level outer houter =>
    cases hf
    exact h.opened level (houter ▸ List.mem_cons_self)

theorem settle (h : r.Recalls ls) (hr : r.settle d = .ok r') : r'.Recalls ls := by
  obtain ⟨n, -, rfl⟩ := bind_pure_eq_ok hr
  exact ⟨h.opened, fun d hd => by cases hd⟩

theorem finish_error (h : r.Recalls ls) {length : Nat} (hf : r.finish length = .error f) :
    f.span = .point length ∨ ∃ m ∈ ls, f.span = m.span := by
  unfold Reading.finish at hf
  split at hf
  · exact .inr (h.close_error hf)
  · next d hp =>
    rcases bind_eq_error hf with hsettle | ⟨s, hs, hf⟩
    · obtain ⟨m, hm, hspan⟩ := settle_error hsettle
      exact .inr ⟨m, h.lastMark d (by rw [hp]; rfl) m hm, hspan⟩
    · exact .inr ((h.settle hs).close_error hf)
  · cases hf
    exact .inl rfl

theorem append (h : r.Recalls ls) (ms : List Lexeme) : r.Recalls (ls ++ ms) where
  opened level hlevel := by
    obtain ⟨m, hm, hspan⟩ := h.opened level hlevel
    exact ⟨m, List.mem_append_left ms hm, hspan⟩
  lastMark d hd m hm := List.mem_append_left ms (h.lastMark d hd m hm)

/-- An element that begins has no marks yet. -/
theorem draw (h : r.Recalls ls) (core : Core) (span : Span) : (r.draw core span).Recalls ls where
  opened := h.opened
  lastMark := by
    intro d hd
    cases hd
    nofun

theorem enter (h : r.Recalls ls) (b : Bracket) : (r.enter b l.span).Recalls (ls ++ [l]) where
  opened := by
    intro level hlevel
    rcases List.mem_cons.1 hlevel with rfl | hlevel
    · exact ⟨l, List.mem_append_right ls List.mem_cons_self, rfl⟩
    · exact (h.append [l]).opened level hlevel
  lastMark := by
    intro d hd
    cases hd

theorem outside {r0 : Reading} {b : Bracket} {opened : Span} {here : List Node}
    (h : (r0.inside b opened here).Recalls ls) (core : Core) (span : Span) :
    (r0.draw core span).Recalls ls where
  opened level hlevel := h.opened level (List.mem_cons_of_mem _ hlevel)
  lastMark := by
    intro d hd
    cases hd
    nofun

theorem receive (h : r.Recalls ls) (hp : r.phase = .between) (hr : r.receive l = .ok r') :
    r'.Recalls (ls ++ [l]) := by
  obtain ⟨w, tone, -, -, rfl⟩ | ⟨-, rfl⟩ | ⟨-, rfl⟩ | ⟨-, rfl⟩ | hr := receive_cases hr
  · exact (h.append [l]).draw _ _
  · exact (h.append [l]).draw _ _
  · exact h.enter .group
  · exact h.enter (.parallel [])
  · obtain ⟨r0, opened, first, others, hcases⟩ := punctuate_cases hp hr
    obtain ⟨-, rfl, rfl⟩ | ⟨vs, rfl, ⟨-, rfl⟩ | ⟨-, rfl⟩⟩ := hcases
    · exact (h.append [l]).outside _ _
    · -- a comma leaves the bracket open where it was
      refine ⟨?_, fun d hd => by cases hd⟩
      intro level hlevel
      rcases List.mem_cons.1 hlevel with rfl | hlevel
      · exact (h.append [l]).opened ⟨.parallel vs, opened, r0.here⟩ List.mem_cons_self
      · exact (h.append [l]).opened level (List.mem_cons_of_mem _ hlevel)
    · exact (h.append [l]).outside _ _

/-- A lexeme that is the last mark has been read. -/
theorem marked (h : r.Recalls ls) {d' : Draft} (hd : d'.lastMark = some l) :
    (r.at d').Recalls (ls ++ [l]) where
  opened := (h.append [l]).opened
  lastMark := by
    intro d hd' m hm
    cases hd'
    rw [hd] at hm
    cases hm
    exact List.mem_append_right ls List.mem_cons_self

theorem step (h : r.Recalls ls) (hr : r.step l = .ok r') : r'.Recalls (ls ++ [l]) := by
  unfold Reading.step at hr
  split at hr
  · next hp => exact h.receive hp hr
  · next d hp =>
    obtain ⟨kind, -, rfl⟩ | ⟨-, rfl⟩ | ⟨kind, -, -, rfl⟩ | ⟨s, hs, hr⟩ := mark_cases hr
    · refine ⟨(h.append [l]).opened, ?_⟩
      intro d' hd'
      cases hd'
      exact (h.append [l]).lastMark d (by rw [hp]; rfl)
    · exact h.marked rfl
    · exact h.marked rfl
    · exact (h.settle hs).receive (settle_between hs) hr
  · next d kind hp =>
    obtain ⟨d', hd', rfl⟩ := bind_pure_eq_ok hr
    obtain ⟨-, q, -, rfl⟩ := Draft.measure_eq_ok_iff.1 hd'
    exact h.marked rfl

theorem run {ms : List Lexeme} (h : r.Recalls ls) (hr : r.run ms = .ok r') :
    r'.Recalls (ls ++ ms) := by
  induction ms generalizing r ls with
  | nil =>
    cases hr
    rwa [List.append_nil]
  | cons l ms ih =>
    rw [Reading.run, List.foldlM_cons] at hr
    obtain ⟨s, hs, hr⟩ := bind_eq_ok hr
    have hrest := ih (h.step hs) hr
    rwa [List.append_assoc] at hrest

end Reading.Recalls

end

/-! ## Sources -/

theorem exists_run_of_append {r r' : Reading} {ls ms : List Lexeme} (h : r.run (ls ++ ms) = .ok r') :
    ∃ s, r.run ls = .ok s := by
  rw [Reading.run, List.foldlM_append] at h
  obtain ⟨s, hs, -⟩ := bind_eq_ok h
  exact ⟨s, hs⟩

/-- What stands before an offset can be completed to a score. -/
def Viable (source : List Char) (offset : Nat) : Prop :=
  ∃ before after, splitAt? offset source = some (before, after) ∧ ∃ t s, read (before ++ t) = .ok s

section

variable {source : List Char} {ls : List Lexeme} {r : Reading}

theorem viable_of_items {x : Item} {rest : List Item} (hitems : items source = ls.map .ok ++ x :: rest)
    (hrun : ({} : Reading).run ls = .ok r) : Viable source (itemStart x) := by
  obtain ⟨before, after, rfl, hstart, -, hcut⟩ := cut_before hitems
  rw [Nat.zero_add] at hstart
  refine ⟨before, after, ?_, exists_completion hrun hcut⟩
  rw [hstart]
  exact splitAt?_byteLength before after

/-- A lexeme that has been read is a place to complete the source, too. -/
theorem viable_of_mem {m : Lexeme} {rest : List Item} (hitems : items source = ls.map .ok ++ rest)
    (hrun : ({} : Reading).run ls = .ok r) (hm : m ∈ ls) : Viable source m.span.start := by
  obtain ⟨before, after, rfl⟩ := List.append_of_mem hm
  obtain ⟨s, hs⟩ := exists_run_of_append hrun
  rw [List.map_append, List.append_assoc] at hitems
  exact viable_of_items hitems hs

theorem viable_end (hitems : items source = ls.map .ok) (hrun : ({} : Reading).run ls = .ok r) :
    Viable source (byteLength source) := by
  have hsplit := splitAt?_byteLength source []
  rw [List.append_nil] at hsplit
  refine ⟨source, [], hsplit, exists_completion (o := 0 + byteLength source) hrun fun d hd => ?_⟩
  rw [← hitems]
  exact cut_end hd

end

theorem recalls_start : ({} : Reading).Recalls [] :=
  ⟨fun _ h => absurd h List.not_mem_nil, fun _ h => by cases h⟩

/-- A source that is not read is blamed at one of its characters, or at its end, where what stands
before is the beginning of some score. -/
theorem viable_prefix {source : List Char} {e : Fault} (h : read source = .error e) :
    e.offset ≤ byteLength source ∧
    ∃ before after, splitAt? e.offset source = some (before, after) ∧
      ∃ t s, read (before ++ t) = .ok s := by
  have hviable : Viable source e.offset := by
    rcases bind_eq_error h with htake | ⟨r, hr, hfinish⟩
    · obtain ⟨ls, r, x, rest, hitems, hrun, hx⟩ := foldlM_take_error htake
      have hrecalls := recalls_start.run hrun
      cases x with
      | error stray =>
        cases hx
        exact viable_of_items hitems hrun
      | ok l =>
        obtain ⟨f, hf, rfl⟩ := mapError_eq_error.1 hx
        show Viable source f.span.start
        rcases hrecalls.step_error hf with hl | ⟨m, hm, hspan⟩
        · rw [hl]
          exact viable_of_items hitems hrun
        · rw [hspan]
          exact viable_of_mem hitems hrun hm
    · obtain ⟨ls, hitems, hrun⟩ := foldlM_take_ok hr
      obtain ⟨f, hf, rfl⟩ := mapError_eq_error.1 hfinish
      show Viable source f.span.start
      rcases (recalls_start.run hrun).finish_error hf with hend | ⟨m, hm, hspan⟩
      · rw [hend]
        exact viable_end hitems hrun
      · rw [hspan]
        exact viable_of_mem (hitems.trans (List.append_nil _).symm) hrun hm
  obtain ⟨before, after, hsplit, t, s, hs⟩ := hviable
  obtain ⟨rfl, hlength⟩ := splitAt?_eq_some_iff.1 hsplit
  refine ⟨?_, before, after, hsplit, t, s, hs⟩
  rw [← hlength, byteLength_append]
  exact Nat.le_add_right _ _

/-- The dot makes the duration too long, which shows only at the element after it. -/
theorem viable_prefix_late : ∃ e, read "[0, (C@9223372036854775807. 2)]".toList = .error e ∧
    e.offset = 26 ∧ ∃ t s, read ("[0, (C@9223372036854775807".toList ++ t) = .ok s := by
  have hoffset : (match read "[0, (C@9223372036854775807. 2)]".toList with
      | .ok _ => none
      | .error e => some e.offset) = some 26 := by decide +kernel
  cases hread : read "[0, (C@9223372036854775807. 2)]".toList with
  | ok s =>
    rw [hread] at hoffset
    cases hoffset
  | error e =>
    rw [hread] at hoffset
    have he : e.offset = 26 := Option.some.inj hoffset
    obtain ⟨-, before, after, hsplit, t, s, hs⟩ := viable_prefix hread
    have hbefore : splitAt? 26 "[0, (C@9223372036854775807. 2)]".toList =
        some ("[0, (C@9223372036854775807".toList, ". 2)]".toList) := by decide +kernel
    rw [he, hbefore] at hsplit
    cases hsplit
    exact ⟨e, rfl, he, t, s, hs⟩

end Stave.Score
