import Stave.Proofs.Score.Accept
import Stave.Proofs.Score.Spelt
import Stave.Score.Printer

/-!
# What is read is derived

While the reader reads, its state tells what it has read: the elements finished on each level with
their derivations, the brackets still open, and the element under way.  A bracket that closes and
an element that is sealed turn what was told into one derivation more.

    r.Tells ls → r.step l = .ok r' → r'.Tells (ls ++ [l])                   (Reading.Tells.step)
    tokenize source = .ok ls →
      (read source = .ok s ↔ ls derives the elements of s) ∧ …              (read_iff_derived)
-/

namespace Stave.Score

/-! ## Lists of phrases -/

theorem phraseLexemes_concat (ps : List Phrase) (p : Phrase) :
    phraseLexemes (ps ++ [p]) = phraseLexemes ps ++ p.lexemes := by
  induction ps with
  | nil => simp [phraseLexemes]
  | cons q ps ih => simp [phraseLexemes, ih]

theorem phraseNodes?_concat {ps : List Phrase} {ns : List Node} (hps : phraseNodes? ps = some ns)
    {p : Phrase} {n : Node} (hp : p.node? = some n) :
    phraseNodes? (ps ++ [p]) = some (ns ++ [n]) := by
  induction ps generalizing ns with
  | nil =>
    obtain rfl := phraseNodes?_nil_eq_some.1 hps
    simp [phraseNodes?, hp]
  | cons q ps ih =>
    obtain ⟨m, ms, hm, hms, rfl⟩ := phraseNodes?_cons_eq_some.1 hps
    exact phraseNodes?_cons_eq_some.2 ⟨m, ms ++ [n], hm, ih hms, rfl⟩

theorem exists_cons_of_phraseNodes? {ps : List Phrase} {n : Node} {ns : List Node}
    (h : phraseNodes? ps = some (n :: ns)) :
    ∃ first others, ps = first :: others ∧ first.node? = some n ∧ phraseNodes? others = some ns := by
  cases ps with
  | nil => cases phraseNodes?_nil_eq_some.1 h
  | cons p ps =>
    obtain ⟨m, ms, hm, hms, hsame⟩ := phraseNodes?_cons_eq_some.1 h
    cases hsame
    exact ⟨p, ps, rfl, hm, hms⟩

/-! ## What a reading tells -/

/-- Voices, latest first, and lexemes that spell each of them and the comma after it. -/
inductive Spoken : List Sequence → List Lexeme → Prop
  | nil : Spoken [] []
  | cons {vs : List Sequence} {ls : List Lexeme} {first : Phrase} {others : List Phrase} {n : Node}
      {ns : List Node} (h : Spoken vs ls) (hn : first.node? = some n)
      (hns : phraseNodes? others = some ns) (comma : Terminal .comma) :
      Spoken (voice n ns :: vs) (ls ++ (first.lexemes ++ phraseLexemes others ++ [comma.val]))

/-- Open brackets, innermost first, and lexemes that spell what was finished before each of them
and then the bracket. -/
inductive Opened : List Level → List Lexeme → Prop
  | nil : Opened [] []
  | group {levels : List Level} {ls : List Lexeme} {ps : List Phrase} {before : List Node}
      (h : Opened levels ls) (hps : phraseNodes? ps = some before.reverse)
      (opened : Terminal .openGroup) :
      Opened (⟨.group, opened.val.span, before⟩ :: levels) (ls ++ phraseLexemes ps ++ [opened.val])
  | parallel {levels : List Level} {ls : List Lexeme} {ps : List Phrase} {before : List Node}
      {vs : List Sequence} {ms : List Lexeme} (h : Opened levels ls)
      (hps : phraseNodes? ps = some before.reverse) (opened : Terminal .openParallel)
      (hvs : Spoken vs ms) :
      Opened (⟨.parallel vs, opened.val.span, before⟩ :: levels)
        (ls ++ phraseLexemes ps ++ opened.val :: ms)

/-- An element under way and the lexemes of it so far. -/
inductive Draft.Begun (d : Draft) : List Lexeme → Prop
  | tone {word : ToneWord} {tone : Tone} {marks : List NoteMark} (h : word.tone? = some tone)
      (hd : d.Marked (.note tone) word.lexeme.span marks) :
      Begun d (word.lexeme :: marks.flatMap NoteMark.lexemes)
  | block {block : Block} {core : Core} {marks : List TimeMark} (h : block.core? = some core)
      (hd : d.Marked core block.span (marks.map .time)) :
      Begun d (block.lexemes ++ marks.flatMap TimeMark.lexemes)

inductive Phase.Begun : Phase → List Lexeme → Prop
  | between : Begun .between []
  | marks {d : Draft} {ls : List Lexeme} (h : d.Begun ls) : Begun (.marks d) ls
  | amount {d : Draft} {ls : List Lexeme} (h : d.Begun ls) (kind : AmountMark)
      (symbol : Terminal kind.token) : Begun (.amount d kind) (ls ++ [symbol.val])

/-- The lexemes are what was finished before the open brackets, then on this level, and then the
element under way. -/
def Reading.Tells (r : Reading) (ls : List Lexeme) : Prop :=
  ∃ (outer : List Lexeme) (ps : List Phrase) (begun : List Lexeme), Opened r.outer outer ∧
    phraseNodes? ps = some r.here.reverse ∧ r.phase.Begun begun ∧
    ls = outer ++ phraseLexemes ps ++ begun

/-! ## Elements under way -/

theorem Block.core?_ne_note (b : Block) (tone : Tone) : b.core? ≠ some (.note tone) := by
  cases b <;> simp [Block.core?, Option.bind_eq_some_iff]

namespace Draft.Begun

variable {d d' : Draft} {ls : List Lexeme}

theorem sealed (h : d.Begun ls) {n : Node} (hn : d.sealed = .ok n) :
    ∃ p : Phrase, p.lexemes = ls ∧ p.node? = some n := by
  cases h with
  | @tone word tone marks h hd =>
    refine ⟨.tone word marks, by rw [Phrase.lexemes], ?_⟩
    rw [Phrase.node?, h]
    exact hd.sealed_iff.1 hn
  | @block block core marks h hd =>
    refine ⟨.block block marks, by rw [Phrase.lexemes], ?_⟩
    rw [Phrase.node?, h]
    exact hd.sealed_iff.1 hn

/-- One mark more.  A mark that only notes bear comes after a note. -/
theorem mark (h : d.Begun ls) (m : NoteMark) (hnote : m.time? = none → ∃ tone, d.core = .note tone)
    (hm : ∀ core span marks, d.Marked core span marks → d'.Marked core span (marks ++ [m])) :
    d'.Begun (ls ++ m.lexemes) := by
  cases h with
  | @tone word tone marks h hd =>
    have hmarks : (marks ++ [m]).flatMap NoteMark.lexemes =
        marks.flatMap NoteMark.lexemes ++ m.lexemes := by simp
    rw [List.cons_append, ← hmarks]
    exact .tone h (hm _ _ _ hd)
  | @block block core marks h hd =>
    cases m with
    | inflection kind symbol =>
      obtain ⟨tone, htone⟩ := hnote rfl
      rw [hd.core] at htone
      rw [htone] at h
      exact absurd h (block.core?_ne_note tone)
    | time mark =>
      have hmarks : (marks ++ [mark]).flatMap TimeMark.lexemes =
          marks.flatMap TimeMark.lexemes ++ mark.lexemes := by simp
      have hd' := hm _ _ _ hd
      rw [show marks.map NoteMark.time ++ [.time mark] = (marks ++ [mark]).map .time by simp] at hd'
      rw [List.append_assoc, NoteMark.lexemes, ← hmarks]
      exact .block h hd'

end Draft.Begun

/-! ## Brackets -/

theorem Spoken.voices {vs : List Sequence} {ls : List Lexeme} (h : Spoken vs ls) {v : Voices}
    {ss : List Sequence} (hv : v.sequences? = some ss) :
    ∃ w : Voices, w.lexemes = ls ++ v.lexemes ∧ w.sequences? = some (vs.reverse ++ ss) := by
  induction h generalizing v ss with
  | nil => exact ⟨v, rfl, hv⟩
  | @cons vs ls first others n ns _ hn hns comma ih =>
    have hmore : (Voices.more first others comma v).sequences? = some (voice n ns :: ss) := by
      rw [Voices.sequences?, hn, hns, hv]
      rfl
    obtain ⟨w, hw, hws⟩ := ih hmore
    refine ⟨w, ?_, ?_⟩
    · rw [hw, Voices.lexemes]
      simp
    · rw [hws, List.reverse_cons, List.append_assoc]
      rfl

/-! ## Steps -/

namespace Reading.Tells

variable {r r' : Reading} {ls : List Lexeme} {l : Lexeme} {d : Draft}

theorem settle (h : r.Tells ls) (hp : r.phase = .marks d) (hr : r.settle d = .ok r') :
    r'.Tells ls := by
  obtain ⟨outer, ps, begun, houter, hps, hbegun, rfl⟩ := h
  obtain ⟨n, hn, rfl⟩ := bind_pure_eq_ok hr
  rw [hp] at hbegun
  cases hbegun with
  | marks hd =>
    obtain ⟨p, rfl, hp⟩ := hd.sealed hn
    refine ⟨outer, ps ++ [p], [], houter, ?_, .between, ?_⟩
    · rw [List.reverse_cons]
      exact phraseNodes?_concat hps hp
    · rw [phraseLexemes_concat]
      simp

/-- A core begins an element. -/
theorem draw {ms : List Lexeme} (h : r.Tells ls) (hp : r.phase = .between) {core : Core} {span : Span}
    (hd : Draft.Begun { core, span } ms) : (r.draw core span).Tells (ls ++ ms) := by
  obtain ⟨outer, ps, begun, houter, hps, hbegun, rfl⟩ := h
  rw [hp] at hbegun
  cases hbegun
  exact ⟨outer, ps, ms, houter, hps, .marks hd, by simp⟩

theorem block {b : Block} {core : Core} (h : r.Tells ls) (hp : r.phase = .between)
    (hcore : b.core? = some core) : (r.draw core b.span).Tells (ls ++ b.lexemes) := by
  have hb : Draft.Begun { core, span := b.span } (b.lexemes ++ [].flatMap TimeMark.lexemes) :=
    .block hcore (.nil _ _)
  rw [List.flatMap_nil, List.append_nil] at hb
  exact h.draw hp hb

theorem enter {b : Bracket} (h : r.Tells ls) (hp : r.phase = .between)
    (hb : ∀ outer ps, Opened r.outer outer → phraseNodes? ps = some r.here.reverse →
      Opened (⟨b, l.span, r.here⟩ :: r.outer) (outer ++ phraseLexemes ps ++ [l])) :
    (r.enter b l.span).Tells (ls ++ [l]) := by
  obtain ⟨outer, ps, begun, houter, hps, hbegun, rfl⟩ := h
  rw [hp] at hbegun
  cases hbegun
  exact ⟨_, [], [], hb outer ps houter hps, by rw [phraseNodes?]; rfl, .between, by simp [phraseLexemes]⟩

theorem inside {r0 : Reading} {b : Bracket} {opened : Span} {here : List Node}
    (h : (r0.inside b opened here).Tells ls) : ∃ outer ps,
      Opened (⟨b, opened, r0.here⟩ :: r0.outer) outer ∧ phraseNodes? ps = some here.reverse ∧
      ls = outer ++ phraseLexemes ps := by
  obtain ⟨outer, ps, begun, houter, hps, hbegun, rfl⟩ := h
  cases hbegun
  exact ⟨outer, ps, houter, hps, List.append_nil _⟩

/-- A reading told on one level only by what is finished. -/
theorem rested {r0 : Reading} {outer : List Lexeme} {ps : List Phrase} (houter : Opened r0.outer outer)
    (hps : phraseNodes? ps = some r0.here.reverse) :
    Reading.Tells { r0 with phase := .between } (outer ++ phraseLexemes ps) :=
  ⟨outer, ps, [], houter, hps, .between, (List.append_nil _).symm⟩

section

variable {r0 : Reading} {opened : Span} {vs : List Sequence} {n : Node} {ns : List Node}

theorem closeGroup (h : (r0.inside .group opened (n :: ns).reverse).Tells ls)
    (closed : Terminal .closeGroup) :
    (r0.draw (.group (n :: ns)) (opened.merge closed.val.span)).Tells (ls ++ [closed.val]) := by
  obtain ⟨outer, ps, houter, hps, rfl⟩ := h.inside
  rw [List.reverse_reverse] at hps
  obtain ⟨first, others, rfl, hfirst, hothers⟩ := exists_cons_of_phraseNodes? hps
  cases houter with
  | group houter hbefore opened =>
    have hcore : (Block.group opened first others closed).core? = some (.group (n :: ns)) := by
      rw [Block.core?, hfirst, hothers]
      rfl
    have hblock := (rested houter hbefore).block rfl hcore
    simp only [Block.lexemes, phraseLexemes, List.append_assoc, List.cons_append, List.nil_append]
      at hblock ⊢
    exact hblock

theorem comma (h : (r0.inside (.parallel vs) opened (n :: ns).reverse).Tells ls)
    (comma : Terminal .comma) :
    (r0.inside (.parallel (voice n ns :: vs)) opened []).Tells (ls ++ [comma.val]) := by
  obtain ⟨outer, ps, houter, hps, rfl⟩ := h.inside
  rw [List.reverse_reverse] at hps
  obtain ⟨first, others, rfl, hfirst, hothers⟩ := exists_cons_of_phraseNodes? hps
  cases houter with
  | parallel houter hbefore opened hvs =>
    refine ⟨_, [], [], .parallel houter hbefore opened (hvs.cons hfirst hothers comma), ?_, .between, ?_⟩
    · rw [phraseNodes?]
      rfl
    · simp [phraseLexemes]

theorem closeParallel (h : (r0.inside (.parallel vs) opened (n :: ns).reverse).Tells ls)
    (closed : Terminal .closeParallel) :
    (r0.draw (.parallel (voice n ns :: vs).reverse) (opened.merge closed.val.span)).Tells
      (ls ++ [closed.val]) := by
  obtain ⟨outer, ps, houter, hps, rfl⟩ := h.inside
  rw [List.reverse_reverse] at hps
  obtain ⟨first, others, rfl, hfirst, hothers⟩ := exists_cons_of_phraseNodes? hps
  cases houter with
  | parallel houter hbefore opened hvs =>
    have hlast : (Voices.last first others).sequences? = some [voice n ns] := by
      rw [Voices.sequences?, hfirst, hothers]
      rfl
    obtain ⟨voices, hvoices, hsequences⟩ := hvs.voices hlast
    have hcore : (Block.parallel opened voices closed).core? =
        some (.parallel (voice n ns :: vs).reverse) := by
      rw [Block.core?, hsequences, List.reverse_cons]
      rfl
    have hblock := (rested houter hbefore).block rfl hcore
    simp only [Block.lexemes, hvoices, Voices.lexemes, phraseLexemes, List.append_assoc,
      List.cons_append] at hblock ⊢
    exact hblock

end

theorem punctuate (h : r.Tells ls) (hp : r.phase = .between) (hr : r.punctuate l = .ok r') :
    r'.Tells (ls ++ [l]) := by
  obtain ⟨r0, opened, n, ns, hcases⟩ := punctuate_cases hp hr
  obtain ⟨htoken, rfl, rfl⟩ | ⟨vs, rfl, ⟨htoken, rfl⟩ | ⟨htoken, rfl⟩⟩ := hcases
  · exact h.closeGroup ⟨l, htoken⟩
  · exact h.comma ⟨l, htoken⟩
  · exact h.closeParallel ⟨l, htoken⟩

theorem receive (h : r.Tells ls) (hp : r.phase = .between) (hr : r.receive l = .ok r') :
    r'.Tells (ls ++ [l]) := by
  obtain ⟨w, tone, rfl, htone, rfl⟩ | ⟨htoken, rfl⟩ | ⟨htoken, rfl⟩ | ⟨htoken, rfl⟩ | hr :=
    receive_cases hr
  · exact h.draw hp (.tone htone (.nil _ _))
  · have hcore : (Block.rest ⟨l, htoken⟩).core? = some .rest := by rw [Block.core?]
    have hrest := h.block hp hcore
    rwa [Block.lexemes] at hrest
  · exact h.enter hp fun _ _ houter hps => houter.group hps ⟨l, htoken⟩
  · exact h.enter hp fun _ _ houter hps => houter.parallel hps ⟨l, htoken⟩ .nil
  · exact h.punctuate hp hr

/-- One mark more on the element under way. -/
theorem mark (h : r.Tells ls) (hp : r.phase = .marks d) (m : NoteMark) {d' : Draft}
    (hnote : m.time? = none → ∃ tone, d.core = .note tone)
    (hm : ∀ core span marks, d.Marked core span marks → d'.Marked core span (marks ++ [m])) :
    (r.at d').Tells (ls ++ m.lexemes) := by
  obtain ⟨outer, ps, begun, houter, hps, hbegun, rfl⟩ := h
  rw [hp] at hbegun
  cases hbegun with
  | marks hd => exact ⟨outer, ps, _, houter, hps, .marks (hd.mark m hnote hm), by simp⟩

theorem amount (h : r.Tells ls) (hp : r.phase = .marks d) (kind : AmountMark)
    (symbol : Terminal kind.token) :
    Reading.Tells { r with phase := .amount d kind } (ls ++ [symbol.val]) := by
  obtain ⟨outer, ps, begun, houter, hps, hbegun, rfl⟩ := h
  rw [hp] at hbegun
  cases hbegun with
  | marks hd => exact ⟨outer, ps, _, houter, hps, .amount hd kind symbol, by simp⟩

theorem measure {kind : AmountMark} (h : r.Tells ls) (hp : r.phase = .amount d kind) {d' : Draft}
    (hd' : d.measure kind l = .ok d') : (r.at d').Tells (ls ++ [l]) := by
  obtain ⟨htoken, q, hq, rfl⟩ := Draft.measure_eq_ok_iff.1 hd'
  obtain ⟨outer, ps, begun, houter, hps, hbegun, rfl⟩ := h
  rw [hp] at hbegun
  cases hbegun with
  | amount hd kind symbol =>
    have hmark := hd.mark (.time (.amount kind symbol ⟨l, htoken⟩)) (fun h => by cases h)
      fun _ _ _ hd => hd.amount kind symbol ⟨l, htoken⟩ hq
    exact ⟨outer, ps, _, houter, hps, .marks hmark, by simp [NoteMark.lexemes, TimeMark.lexemes]⟩

theorem step (h : r.Tells ls) (hr : r.step l = .ok r') : r'.Tells (ls ++ [l]) := by
  unfold Reading.step at hr
  split at hr
  · next hp => exact h.receive hp hr
  · next d hp =>
    obtain ⟨kind, htoken, rfl⟩ | ⟨htoken, rfl⟩ | ⟨kind, htoken, hnote, rfl⟩ | ⟨s, hs, hr⟩ := mark_cases hr
    · exact h.amount hp kind ⟨l, htoken⟩
    · exact h.mark hp (.time (.dot ⟨l, htoken⟩)) (fun h => by cases h)
        fun _ _ _ hd => hd.dotted ⟨l, htoken⟩
    · exact h.mark hp (.inflection kind ⟨l, htoken⟩) (fun _ => hnote)
        fun _ _ _ hd => hd.inflected kind ⟨l, htoken⟩
    · exact (h.settle hp hs).receive (settle_between hs) hr
  · next d kind hp =>
    obtain ⟨d', hd', rfl⟩ := bind_pure_eq_ok hr
    exact h.measure hp hd'

theorem run {ms : List Lexeme} (h : r.Tells ls) (hr : r.run ms = .ok r') : r'.Tells (ls ++ ms) := by
  induction ms generalizing r ls with
  | nil =>
    cases hr
    rwa [List.append_nil]
  | cons l ms ih =>
    rw [Reading.run, List.foldlM_cons] at hr
    obtain ⟨s, hs, hr⟩ := bind_eq_ok hr
    have hrest := ih (h.step hs) hr
    rwa [List.append_assoc] at hrest

theorem finish {length : Nat} {s : Sequence} (h : r.Tells ls) (hr : r.finish length = .ok s) :
    ∃ ps, phraseLexemes ps = ls ∧ phraseNodes? ps = some s.elements ∧ s.span = ⟨0, length⟩ := by
  have close : ∀ r : Reading, r.Tells ls → r.phase = .between → r.close length = .ok s →
      ∃ ps, phraseLexemes ps = ls ∧ phraseNodes? ps = some s.elements ∧ s.span = ⟨0, length⟩ := by
    intro r h hp hr
    obtain ⟨outer, ps, begun, houter, hps, hbegun, rfl⟩ := h
    rw [hp] at hbegun
    cases hbegun
    unfold Reading.close at hr
    split at hr
    · next hnil =>
      cases hr
      rw [hnil] at houter
      cases houter
      exact ⟨ps, by simp, hps, rfl⟩
    · cases hr
  unfold Reading.finish at hr
  split at hr
  · next hp => exact close r h hp hr
  · next d hp =>
    obtain ⟨s, hs, hr⟩ := bind_eq_ok hr
    exact close s (h.settle hp hs) (settle_between hs) hr
  · cases hr

end Reading.Tells

/-! ## Scores -/

theorem tells_start : ({} : Reading).Tells [] :=
  ⟨[], [], [], .nil, by rw [phraseNodes?]; rfl, .between, by simp [phraseLexemes]⟩

/-- Reading lexemes to the end of a source gives what they derive, and nothing else. -/
theorem finish_run_iff {ls : List Lexeme} {length : Nat} {s : Sequence} :
    (do (← ({} : Reading).run ls).finish length) = .ok s ↔
      ∃ ps, phraseLexemes ps = ls ∧ phraseNodes? ps = some s.elements ∧ s.span = ⟨0, length⟩ := by
  constructor
  · intro h
    obtain ⟨r, hr, hs⟩ := bind_eq_ok h
    exact (tells_start.run hr).finish hs
  · rintro ⟨ps, rfl, hps, hspan⟩
    obtain ⟨r, hr, hrests⟩ := phraseLexemes_builds hps {} {} ⟨rfl, .inl rfl⟩
    rw [hr]
    show r.finish length = _
    rw [hrests.finish]
    obtain ⟨elements, span⟩ := s
    obtain rfl : span = _ := hspan
    show Except.ok (Sequence.mk (elements.reverse ++ []).reverse _) = _
    rw [List.append_nil, List.reverse_reverse]

theorem read_of_items {source : List Char} {ls : List Lexeme} (h : items source = ls.map .ok) :
    read source =
      (do (← ({} : Reading).run ls).finish (Text.byteLength source)).mapError Fault.read := by
  unfold read
  rw [h, foldlM_take, mapError_bind]

theorem read_of_tokenize {source : List Char} {ls : List Lexeme} (h : tokenize source = .ok ls) :
    read source =
      (do (← ({} : Reading).run ls).finish (Text.byteLength source)).mapError Fault.read :=
  read_of_items (mapM_id_eq_ok h)

/-- A source is read if all its lexemes in turn are those of a derivation that means something, and
for no other reason.  There is one such derivation, and what is read is what it means. -/
theorem read_iff_derived {source : List Char} {ls : List Lexeme} (h : tokenize source = .ok ls) :
    (∀ s, read source = .ok s ↔ ∃ ps, phraseLexemes ps = ls ∧ phraseNodes? ps = some s.elements ∧
      s.span = ⟨0, Text.byteLength source⟩) ∧
    (∀ ps qs, phraseLexemes ps = ls → phraseLexemes qs = ls → ps = qs) ∧
    ∀ s, read source = .ok s → ∀ n ∈ s.elements, n.Spelt := by
  refine ⟨fun s => ?_, fun ps qs hps hqs => ?_, fun s hs => spelt_of_read hs⟩
  · rw [read_of_tokenize h, mapError_eq_ok, finish_run_iff]
  · exact phraseLexemes_injective (hps.trans hqs.symm)

theorem read_iff_derived_nested :
    ∃ ls s ps, tokenize "[1^@2, (C#4 ~.)/3] // two".toList = .ok ls ∧ ls.length = 14 ∧
      read "[1^@2, (C#4 ~.)/3] // two".toList = .ok s ∧ s.text = "[1@2^, (C#4 ~@3/2)/3]" ∧
      phraseLexemes ps = ls ∧ phraseNodes? ps = some s.elements := by
  have hlength : (tokenize "[1^@2, (C#4 ~.)/3] // two".toList).map List.length = .ok 14 := by
    decide +kernel
  have htext : (read "[1^@2, (C#4 ~.)/3] // two".toList).map Sequence.text =
      .ok "[1@2^, (C#4 ~@3/2)/3]" := by decide +kernel
  cases hls : tokenize "[1^@2, (C#4 ~.)/3] // two".toList with
  | error stray =>
    rw [hls] at hlength
    cases hlength
  | ok ls =>
    cases hs : read "[1^@2, (C#4 ~.)/3] // two".toList with
    | error fault =>
      rw [hs] at htext
      cases htext
    | ok s =>
      rw [hls] at hlength
      rw [hs] at htext
      obtain ⟨ps, hps, hmeans, -⟩ := ((read_iff_derived hls).1 s).1 hs
      exact ⟨ls, s, ps, rfl, Except.ok.inj hlength, rfl, Except.ok.inj htext, hps, hmeans⟩

end Stave.Score
