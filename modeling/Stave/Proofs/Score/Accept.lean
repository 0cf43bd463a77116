import Stave.Proofs.Score.Steps

/-!
# What is derived is read

The reader takes the lexemes of a phrase one by one and adds the node that the phrase means.
-/

namespace Stave.Score

/-! ## Drafts under marks -/

/-- A draft of a core under some marks. -/
structure Draft.Marked (d : Draft) (core : Core) (span : Span) (marks : List NoteMark) : Prop where
  core : d.core = core
  span : d.span = span
  factor : (marks.filterMap NoteMark.time?).foldlM TimeMark.scale? 1 = some d.factor
  dots : d.dots = (marks.filterMap NoteMark.time?).countP TimeMark.isDot
  shift : d.shift = octaveShift marks
  articulations : d.articulations = marks.filterMap NoteMark.articulation?
  lastMark : d.lastMark = marks.getLast?.map NoteMark.last

namespace Draft.Marked

variable {d : Draft} {core : Core} {span : Span} {marks : List NoteMark}

theorem nil (core : Core) (span : Span) : Marked { core, span } core span [] :=
  ⟨rfl, rfl, rfl, rfl, rfl, rfl, rfl⟩

theorem amount (h : d.Marked core span marks) (kind : AmountMark) (symbol : Terminal kind.token)
    (number : Terminal .number) {q : Ratio}
    (hq : kind.scale? d.factor number.val.text = some q) :
    Marked { d with factor := q, lastMark := number.val } core span
      (marks ++ [.time (.amount kind symbol number)]) := by
  refine ⟨h.core, h.span, ?_, ?_, ?_, ?_, ?_⟩
  · simp [List.filterMap_append, h.factor, TimeMark.scale?, hq]
  · simp [List.filterMap_append, h.dots]
  · simp [octaveShift, List.filterMap_append, List.filterMap_cons, h.shift]
  · simp [List.filterMap_append, List.filterMap_cons, h.articulations]
  · simp [NoteMark.last]

theorem dotted (h : d.Marked core span marks) (symbol : Terminal .dot) :
    (d.dotted symbol).Marked core span (marks ++ [.time (.dot symbol)]) := by
  refine ⟨h.core, h.span, ?_, ?_, ?_, ?_, ?_⟩
  · simp [List.filterMap_append, h.factor, TimeMark.scale?, Draft.dotted]
  · simp [List.filterMap_append, h.dots, Draft.dotted]
  · simp [octaveShift, List.filterMap_append, List.filterMap_cons, h.shift, Draft.dotted]
  · simp [List.filterMap_append, List.filterMap_cons, h.articulations, Draft.dotted]
  · simp [NoteMark.last, Draft.dotted]

theorem inflected (h : d.Marked core span marks) (kind : Inflection) (symbol : Terminal kind.token) :
    Marked { kind.change d with lastMark := symbol.val } core span
      (marks ++ [.inflection kind symbol]) := by
  obtain ⟨hcore, hspan, hfactor, hdots, hshift, harticulations, -⟩ := h
  -- The change is read off the kind, field by field.
  refine ⟨?_, ?_, ?_, ?_, ?_, ?_, by simp [NoteMark.last]⟩ <;> cases kind <;>
    simp [Inflection.change, Draft.shifted, Draft.articulated, octaveShift, List.filterMap_append,
      List.filterMap_cons, *]

/-- Sealing a draft gives what the core under the marks means. -/
theorem sealed_iff (h : d.Marked core span marks) {n : Node} :
    d.sealed = .ok n ↔ core.marked? span marks = some n := by
  have hnode : ∀ factor span, d.node factor span =
      core.element (octaveShift marks) (marks.filterMap NoteMark.articulation?) factor span := by
    intro factor span
    rw [Draft.node, h.core, h.shift, h.articulations]
    rfl
  have hfactor : factor? (marks.filterMap NoteMark.time?) =
      (dotFactor? d.dots).bind d.factor.mul? := by
    rw [factor?, h.factor, h.dots]
    rfl
  have hlast := h.lastMark
  unfold Draft.sealed Core.marked? markedSpan
  rw [hlast, hfactor]
  cases hm : marks.getLast? with
  | none =>
    have hnil := List.getLast?_eq_none_iff.1 hm
    have hone : (dotFactor? d.dots).bind d.factor.mul? = some d.factor := by
      have hdot : dotFactor? d.dots = some 1 := by
        rw [h.dots, hnil]
        decide
      rw [hdot]
      exact Ratio.mul?_one d.factor
    rw [hone]
    simp [hnode, h.span]
  | some m =>
    cases (dotFactor? d.dots).bind d.factor.mul? with
    | none => simp
    | some factor => simp [hnode, h.span]

end Draft.Marked

/-! ## Runs over marks -/

section

variable {r : Reading} {d : Draft} {core : Core} {span : Span} {marks : List NoteMark}

/-- One mark, if the duration can be held. -/
theorem run_mark (h : d.Marked core span marks) (m : NoteMark)
    (hnote : m.time? = none → ∃ tone, core = .note tone)
    (hq : (((marks ++ [m]).filterMap NoteMark.time?).foldlM TimeMark.scale? 1).isSome) :
    ∃ d', (r.at d).run m.lexemes = .ok (r.at d') ∧ d'.Marked core span (marks ++ [m]) := by
  rcases m with (⟨kind, symbol, number⟩ | symbol) | ⟨kind, symbol⟩
  · rw [List.filterMap_append, List.foldlM_append, h.factor] at hq
    obtain ⟨q, hq⟩ := Option.isSome_iff_exists.1 hq
    have hscale : kind.scale? d.factor number.val.text = some q := by
      simpa [List.filterMap_cons, NoteMark.time?, TimeMark.scale?] using hq
    have hmeasure := Draft.measure_eq_ok_iff.2 ⟨number.2, q, hscale, rfl⟩
    refine ⟨_, ?_, h.amount kind symbol number hscale⟩
    show (r.at d).run [symbol.val, number.val] = _
    rw [Reading.run_cons (step_amount kind symbol), Reading.run_cons (step_number kind number hmeasure)]
    rfl
  · refine ⟨_, ?_, h.dotted symbol⟩
    show (r.at d).run [symbol.val] = _
    rw [Reading.run_cons (step_dot symbol)]
    rfl
  · obtain ⟨tone, htone⟩ := hnote rfl
    refine ⟨_, ?_, h.inflected kind symbol⟩
    show (r.at d).run [symbol.val] = _
    rw [Reading.run_cons (step_inflection (h.core.trans htone) kind symbol)]
    rfl

theorem run_marks (h : d.Marked core span marks) (more : List NoteMark)
    (hnote : ∀ m ∈ more, m.time? = none → ∃ tone, core = .note tone)
    (hq : (((marks ++ more).filterMap NoteMark.time?).foldlM TimeMark.scale? 1).isSome) :
    ∃ d', (r.at d).run (more.flatMap NoteMark.lexemes) = .ok (r.at d') ∧
      d'.Marked core span (marks ++ more) := by
  induction more generalizing marks d with
  | nil =>
    rw [List.append_nil]
    exact ⟨d, rfl, h⟩
  | cons m more ih =>
    have hsplit : marks ++ m :: more = marks ++ [m] ++ more := by simp
    rw [hsplit] at hq ⊢
    have hfirst : (((marks ++ [m]).filterMap NoteMark.time?).foldlM TimeMark.scale? 1).isSome := by
      rw [List.filterMap_append, List.foldlM_append] at hq
      exact Option.isSome_of_isSome_bind hq
    obtain ⟨d₁, hrun₁, h₁⟩ := run_mark h m (hnote m List.mem_cons_self) hfirst
    obtain ⟨d', hrun, h'⟩ := ih h₁ (fun x hx => hnote x (List.mem_cons_of_mem m hx)) hq
    refine ⟨d', ?_, h'⟩
    rw [List.flatMap_cons, Reading.run_append hrun₁, hrun]

end

/-! ## Phrases -/

/-- Lexemes that add these nodes to a reading at rest. -/
def Builds (ls : List Lexeme) (ns : List Node) : Prop :=
  ∀ r r0 : Reading, r.Rests r0 →
    ∃ r', r.run ls = .ok r' ∧ r'.Rests { r0 with here := ns.reverse ++ r0.here }

/-- Lexemes that begin an element with this core. -/
def Draws (ls : List Lexeme) (core : Core) (span : Span) : Prop :=
  ∀ r r0 : Reading, r.Rests r0 → r.run ls = .ok (r0.draw core span)

/-- Lexemes that end a parallel block by adding these voices to it. -/
def Fills (ls : List Lexeme) (ss : List Sequence) : Prop :=
  ∀ (r r0 : Reading) (vs : List Sequence) (opened : Span) (closed : Terminal .closeParallel),
    r.Rests (r0.inside (.parallel vs) opened []) → r.run (ls ++ [closed.val]) =
      .ok (r0.draw (.parallel (vs.reverse ++ ss)) (opened.merge closed.val.span))

theorem Builds.nil : Builds [] [] := fun r _ hr => ⟨r, rfl, hr⟩

theorem Builds.append {ls ms : List Lexeme} {ns os : List Node} (hl : Builds ls ns)
    (hm : Builds ms os) : Builds (ls ++ ms) (ns ++ os) := by
  intro r r0 hr
  obtain ⟨r₁, hrun₁, hr₁⟩ := hl r r0 hr
  obtain ⟨r₂, hrun₂, hr₂⟩ := hm r₁ _ hr₁
  refine ⟨r₂, by rw [Reading.run_append hrun₁, hrun₂], ?_⟩
  rw [List.reverse_append, List.append_assoc]
  exact hr₂

/-- The lexemes of a core and of its marks. -/
theorem Draws.builds {ls : List Lexeme} {core : Core} {span : Span} (h : Draws ls core span)
    {marks : List NoteMark} (hnote : ∀ m ∈ marks, m.time? = none → ∃ tone, core = .note tone)
    {n : Node} (hn : core.marked? span marks = some n) :
    Builds (ls ++ marks.flatMap NoteMark.lexemes) [n] := by
  intro r r0 hr
  have hq : ((([] ++ marks).filterMap NoteMark.time?).foldlM TimeMark.scale? 1).isSome := by
    obtain ⟨factor, hfactor, -⟩ := Option.bind_eq_some_iff.1 hn
    obtain ⟨product, hproduct, -⟩ := Option.bind_eq_some_iff.1 hfactor
    exact Option.isSome_of_eq_some hproduct
  obtain ⟨d, hrun, hd⟩ := run_marks (r := r0) (Draft.Marked.nil core span) marks hnote hq
  refine ⟨r0.at d, ?_, hr.1, .inr ⟨d, rfl, ?_⟩⟩
  · rw [Reading.run_append (h r r0 hr)]
    exact hrun
  · show (do return { r0.at d with here := (← d.sealed) :: r0.here, phase := .between }) = _
    rw [hd.sealed_iff.2 hn, ← hr.1]
    rfl

theorem ToneWord.draws {w : ToneWord} {tone : Tone} (h : w.tone? = some tone) :
    Draws [w.lexeme] (.note tone) w.lexeme.span := by
  intro r r0 hr
  have hmark : w.lexeme.token.isMark = false := by
    rcases w.token_cases with ht | ht <;> rw [ht] <;> rfl
  rw [Reading.run_cons ((hr.step hmark).trans (w.receive_iff.2 ⟨tone, h, rfl⟩))]
  rfl

/-! ## Brackets -/

section

variable {r r0 : Reading} {b : Bracket} {opened : Span} {vs ss : List Sequence} {ls ms : List Lexeme}
  {first : Node} {others : List Node}

theorem Builds.inside {ns : List Node} (h : Builds ls ns) (hr : r.Rests (r0.inside b opened [])) :
    ∃ r', r.run ls = .ok r' ∧ r'.Rests (r0.inside b opened ns.reverse) := by
  obtain ⟨r', hrun, hr'⟩ := h r _ hr
  refine ⟨r', hrun, ?_⟩
  rwa [show (r0.inside b opened []).here = [] from rfl, List.append_nil] at hr'

theorem draws_rest (symbol : Terminal .rest) : Draws [symbol.val] .rest symbol.val.span := by
  intro r r0 hr
  have hstep : r.step symbol = .ok (r0.draw .rest symbol.val.span) := by
    rw [hr.step (by rw [symbol.2]; rfl), Reading.receive, symbol.2]
  rw [Reading.run_cons hstep]
  rfl

theorem draws_group (h : Builds ls (first :: others)) (opened : Terminal .openGroup)
    (closed : Terminal .closeGroup) : Draws (opened.val :: (ls ++ [closed.val])) (.group (first :: others))
      (opened.val.span.merge closed.val.span) := by
  intro r r0 hr
  obtain ⟨r₁, hrun, hr₁⟩ := h.inside (r0.rests_inside .group opened.val.span [])
  have hclose := (hr₁.step (by rw [closed.2]; rfl)).trans (receive_closeGroup closed)
  rw [Reading.run_cons (hr.open_step.1 opened.2), Reading.run_append hrun, Reading.run_cons hclose]
  rfl

theorem fills_last (h : Builds ls (first :: others)) : Fills ls [voice first others] := by
  intro r r0 vs opened closed hr
  obtain ⟨r₁, hrun, hr₁⟩ := h.inside hr
  have hclose := (hr₁.step (by rw [closed.2]; rfl)).trans (receive_closeParallel closed)
  rw [Reading.run_append hrun, Reading.run_cons hclose, List.reverse_cons]
  rfl

theorem Fills.more (h : Builds ls (first :: others)) (comma : Terminal .comma) (hss : Fills ms ss) :
    Fills (ls ++ comma.val :: ms) (voice first others :: ss) := by
  intro r r0 vs opened closed hr
  obtain ⟨r₁, hrun, hr₁⟩ := h.inside hr
  have hcomma := (hr₁.step (by rw [comma.2]; rfl)).trans (receive_comma comma)
  have hrest := hss _ r0 (voice first others :: vs) opened closed (r0.rests_inside _ opened [])
  rw [List.append_assoc, Reading.run_append hrun, List.cons_append, Reading.run_cons hcomma, hrest,
    List.reverse_cons, List.append_assoc]
  rfl

theorem draws_parallel (h : Fills ls ss) (opened : Terminal .openParallel)
    (closed : Terminal .closeParallel) : Draws (opened.val :: (ls ++ [closed.val])) (.parallel ss)
      (opened.val.span.merge closed.val.span) := by
  intro r r0 hr
  rw [Reading.run_cons (hr.open_step.2 opened.2)]
  exact h _ _ _ _ closed (r0.rests_inside (.parallel []) opened.val.span [])

end

/-! ## Derivations -/

mutual

theorem Phrase.builds : ∀ {p : Phrase} {n : Node}, p.node? = some n → Builds p.lexemes [n]
  | .tone word marks, n, h => by
    rw [Phrase.node?] at h
    obtain ⟨tone, htone, hn⟩ := Option.bind_eq_some_iff.1 h
    rw [Phrase.lexemes]
    exact word.draws htone |>.builds (fun _ _ _ => ⟨tone, rfl⟩) hn
  | .block block marks, n, h => by
    rw [Phrase.node?] at h
    obtain ⟨core, hcore, hn⟩ := Option.bind_eq_some_iff.1 h
    rw [Phrase.lexemes, ← flatMap_time]
    refine (Block.draws hcore).builds (fun m hm hnone => ?_) hn
    obtain ⟨mark, -, rfl⟩ := List.mem_map.1 hm
    cases hnone
termination_by structural p => p

theorem Block.draws : ∀ {b : Block} {core : Core}, b.core? = some core → Draws b.lexemes core b.span
  | .rest symbol, core, h => by
    rw [Block.core?] at h
    cases h
    rw [Block.lexemes]
    exact draws_rest symbol
  | .group opened first others closed, core, h => by
    obtain ⟨n, ns, hn, hns, rfl⟩ := core?_group_eq_some.1 h
    rw [Block.lexemes]
    exact draws_group ((Phrase.builds hn).append (phraseLexemes_builds hns)) opened closed
  | .parallel opened voices closed, core, h => by
    rw [Block.core?] at h
    obtain ⟨ss, hss, h⟩ := Option.bind_eq_some_iff.1 h
    cases h
    rw [Block.lexemes]
    exact draws_parallel (Voices.fills hss) opened closed
termination_by structural b => b

theorem Voices.fills : ∀ {v : Voices} {ss : List Sequence}, v.sequences? = some ss →
    Fills v.lexemes ss
  | .last first others, ss, h => by
    obtain ⟨n, ns, hn, hns, rfl⟩ := sequences?_last_eq_some.1 h
    rw [Voices.lexemes]
    exact fills_last ((Phrase.builds hn).append (phraseLexemes_builds hns))
  | .more first others comma rest, ss, h => by
    obtain ⟨n, ns, ss, hn, hns, hss, rfl⟩ := sequences?_more_eq_some.1 h
    rw [Voices.lexemes]
    exact .more ((Phrase.builds hn).append (phraseLexemes_builds hns)) comma (Voices.fills hss)
termination_by structural v => v

theorem phraseLexemes_builds : ∀ {ps : List Phrase} {ns : List Node}, phraseNodes? ps = some ns →
    Builds (phraseLexemes ps) ns
  | [], ns, h => by
    rw [phraseNodes?_nil_eq_some.1 h, phraseLexemes]
    exact .nil
  | p :: ps, ns, h => by
    obtain ⟨n, ns, hn, hns, rfl⟩ := phraseNodes?_cons_eq_some.1 h
    rw [phraseLexemes]
    exact (Phrase.builds hn).append (phraseLexemes_builds hns)
termination_by structural ps => ps

end

end Stave.Score
