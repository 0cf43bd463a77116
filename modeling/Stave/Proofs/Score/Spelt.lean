import Stave.Proofs.Score.Steps

/-!
# What a source can spell

A reader builds only some of the trees: no sequence stands as an element, no bracket and no voice
is empty, no duration is negative, and every number is one that its notation can hold.

    read source = .ok s → ∀ n ∈ s.elements, n.Spelt                       (spelt_of_read)
-/

namespace Stave.Score

/-! ## Trees -/

def Tone.Spelt : Tone → Prop
  | .degree n => Width.int64.Holds n
  | .named name =>
    (letterClass? name.letter).isSome ∧ Width.int32.Holds name.accidental ∧
      ∀ octave ∈ name.octave, Width.int32.Holds octave

structure Note.Spelt (n : Note) : Prop where
  tone : n.tone.Spelt
  duration : 0 ≤ n.duration
  shift : Width.int32.Holds n.octaveShift
  articulations : .normal ∉ n.articulations

/-- An element that some text spells. -/
inductive Node.Spelt : Node → Prop
  | note {n : Note} (h : n.Spelt) : Spelt (.note n)
  | rest {r : Rest} (h : 0 ≤ r.duration) : Spelt (.rest r)
  | group {elements : List Node} {factor : Ratio} {span : Span} (some : elements ≠ [])
      (each : ∀ n ∈ elements, n.Spelt) (h : 0 ≤ factor) : Spelt (.group elements factor span)
  | parallel {voices : List Sequence} {factor : Ratio} {span : Span} (some : voices ≠ [])
      (someEach : ∀ s ∈ voices, s.elements ≠ []) (each : ∀ s ∈ voices, ∀ n ∈ s.elements, n.Spelt)
      (h : 0 ≤ factor) : Spelt (.parallel voices factor span)

/-! ## Readings -/

def Core.Spelt : Core → Prop
  | .note tone => tone.Spelt
  | .rest => True
  | .group elements => elements ≠ [] ∧ ∀ n ∈ elements, n.Spelt
  | .parallel voices =>
    voices ≠ [] ∧ (∀ s ∈ voices, s.elements ≠ []) ∧ ∀ s ∈ voices, ∀ n ∈ s.elements, n.Spelt

structure Draft.Spelt (d : Draft) : Prop where
  core : d.core.Spelt
  factor : 0 ≤ d.factor
  shift : Width.int32.Holds d.shift
  articulations : .normal ∉ d.articulations

def Phase.Spelt : Phase → Prop
  | .between => True
  | .marks d => d.Spelt
  | .amount d _ => d.Spelt

def Bracket.Spelt : Bracket → Prop
  | .group => True
  | .parallel voices =>
    (∀ s ∈ voices, s.elements ≠ []) ∧ ∀ s ∈ voices, ∀ n ∈ s.elements, n.Spelt

structure Reading.Spelt (r : Reading) : Prop where
  outer : ∀ level ∈ r.outer, level.bracket.Spelt ∧ ∀ n ∈ level.before, n.Spelt
  here : ∀ n ∈ r.here, n.Spelt
  phase : r.phase.Spelt

/-! ## Numbers and names -/

theorem octaveOf?_holds {cs : List Char} {octave : Option Int} (h : NoteName.octaveOf? cs = some octave) :
    ∀ n ∈ octave, Width.int32.Holds n := by
  intro n hn
  cases cs with
  | nil =>
    cases h
    cases hn
  | cons c cs =>
    obtain ⟨m, hm, rfl⟩ := Option.map_eq_some_iff.1 h
    cases hn
    exact Numeral.holds_of_integer? hm

theorem read?_spelt {cs : List Char} {name : NoteName} (h : NoteName.read? cs = some name) :
    (Tone.named name).Spelt := by
  cases cs with
  | nil => cases h
  | cons letter cs =>
    obtain ⟨pitch, hp, h⟩ := Option.bind_eq_some_iff.1 h
    obtain ⟨octave, ho, h⟩ := Option.bind_eq_some_iff.1 h
    cases h
    exact ⟨Option.isSome_of_eq_some hp, Width.holds_wrap (by decide) _, octaveOf?_holds ho⟩

theorem ToneWord.spelt_of_tone? {w : ToneWord} {tone : Tone} (h : w.tone? = some tone) :
    tone.Spelt := by
  cases w with
  | degree number =>
    obtain ⟨-, h⟩ := Option.ite_none_left_eq_some.1 h
    obtain ⟨n, hn, rfl⟩ := Option.map_eq_some_iff.1 h
    exact Numeral.holds_of_integer? hn
  | name word =>
    obtain ⟨name, hname, rfl⟩ := Option.map_eq_some_iff.1 h
    exact read?_spelt hname

theorem dotFactor?_nonneg {dots : Nat} {q : Ratio} (h : dotFactor? dots = some q) : 0 ≤ q := by
  have hu : (0 : Int) < Nat.pow 2 (min dots maxDots) := by exact_mod_cast Nat.two_pow_pos _
  rw [dotFactor?, Ratio.ofQuotient?_eq_some_iff (by omega)] at h
  rw [← Ratio.toRat_nonneg, h]
  have hn : (0 : Int) ≤ 2 * Nat.pow 2 (min dots maxDots) - 1 := by omega
  exact div_nonneg (by exact_mod_cast hn) (by exact_mod_cast hu.le)

/-! ## Drafts -/

theorem Draft.Spelt.node {d : Draft} (h : d.Spelt) {factor : Ratio} (hf : 0 ≤ factor) (span : Span) :
    (d.node factor span).Spelt := by
  obtain ⟨core, span', factor', dots, shift, articulations, lastMark⟩ := d
  cases core with
  | note tone => exact .note ⟨h.core, hf, h.shift, h.articulations⟩
  | rest => exact .rest hf
  | group elements => exact .group h.core.1 h.core.2 hf
  | parallel voices => exact .parallel h.core.1 h.core.2.1 h.core.2.2 hf

theorem Draft.Spelt.sealed {d : Draft} (h : d.Spelt) {n : Node} (hn : d.sealed = .ok n) :
    n.Spelt := by
  unfold Draft.sealed at hn
  split at hn
  · cases hn
    exact h.node h.factor _
  · split at hn
    · next factor hf =>
      cases hn
      obtain ⟨dot, hdot, hmul⟩ := Option.bind_eq_some_iff.1 hf
      exact h.node (Ratio.mul?_nonneg h.factor (dotFactor?_nonneg hdot) hmul) _
    · cases hn

theorem Draft.Spelt.measure {d : Draft} (h : d.Spelt) {m : AmountMark} {l : Lexeme} {d' : Draft}
    (hd : d.measure m l = .ok d') : d'.Spelt := by
  obtain ⟨-, q, hq, rfl⟩ := Draft.measure_eq_ok_iff.1 hd
  exact ⟨h.core, AmountMark.scale?_nonneg h.factor hq, h.shift, h.articulations⟩

theorem Draft.Spelt.dotted {d : Draft} (h : d.Spelt) (l : Lexeme) : (d.dotted l).Spelt :=
  ⟨h.core, h.factor, h.shift, h.articulations⟩

theorem Draft.Spelt.shifted {d : Draft} (h : d.Spelt) (octaves : Int) : (d.shifted octaves).Spelt :=
  ⟨h.core, h.factor, Width.holds_clamp (by decide) _, h.articulations⟩

theorem Draft.Spelt.articulated {d : Draft} (h : d.Spelt) {a : Articulation} (ha : a ≠ .normal) :
    (d.articulated a).Spelt := by
  refine ⟨h.core, h.factor, h.shift, fun hm => ?_⟩
  rcases List.mem_append.1 hm with hm | hm
  · exact h.articulations hm
  · exact ha (List.mem_singleton.1 hm).symm

theorem Draft.Spelt.change {d : Draft} (h : d.Spelt) (kind : Inflection) : (kind.change d).Spelt := by
  cases kind with
  | up => exact h.shifted 1
  | down => exact h.shifted (-1)
  | accent => exact h.articulated (by decide)
  | staccato => exact h.articulated (by decide)
  | tenuto => exact h.articulated (by decide)

/-! ## The machine -/

namespace Reading.Spelt

variable {r r' : Reading} {l : Lexeme} {d : Draft}

theorem draw (h : r.Spelt) {core : Core} (hc : core.Spelt) (span : Span) :
    (r.draw core span).Spelt := by
  have hone : (0 : Ratio) ≤ 1 := by decide
  have hzero : Width.int32.Holds 0 := by decide
  exact ⟨h.outer, h.here, hc, hone, hzero, by simp⟩

theorem enter (h : r.Spelt) {b : Bracket} (hb : b.Spelt) (opened : Span) : (r.enter b opened).Spelt := by
  refine ⟨fun level hl => ?_, by simp [Reading.enter], trivial⟩
  rcases List.mem_cons.1 hl with rfl | hl
  · exact ⟨hb, h.here⟩
  · exact h.outer level hl

/-- What is drawn outside a bracket. -/
theorem draw_outside {r0 : Reading} {b : Bracket} {opened : Span} {here : List Node}
    (h : (r0.inside b opened here).Spelt) {core : Core} (hc : core.Spelt) (span : Span) :
    (r0.draw core span).Spelt := by
  obtain ⟨hlevel, houter⟩ := List.forall_mem_cons.1 h.outer
  have h0 : Reading.Spelt { r0 with phase := .between } := ⟨houter, hlevel.2, trivial⟩
  exact h0.draw hc span

theorem punctuate (h : r.Spelt) (hp : r.phase = .between) (hr : r.punctuate l = .ok r') :
    r'.Spelt := by
  obtain ⟨r0, opened, first, others, hcases⟩ := punctuate_cases hp hr
  obtain ⟨-, rfl, rfl⟩ | ⟨vs, rfl, hvoices⟩ := hcases
  · have hc : (Core.group (first :: others)).Spelt :=
      ⟨by simp, fun n hn => h.here n (List.mem_reverse.2 hn)⟩
    exact h.draw_outside hc _
  · obtain ⟨⟨hb, hbefore⟩, houter⟩ := List.forall_mem_cons.1 h.outer
    have hvs : (Bracket.parallel (voice first others :: vs)).Spelt :=
      ⟨List.forall_mem_cons.2 ⟨by simp [voice], hb.1⟩,
        List.forall_mem_cons.2 ⟨fun n hn => h.here n (List.mem_reverse.2 hn), hb.2⟩⟩
    obtain ⟨-, rfl⟩ | ⟨-, rfl⟩ := hvoices
    · exact ⟨List.forall_mem_cons.2 ⟨⟨hvs, hbefore⟩, houter⟩, by simp [Reading.inside], trivial⟩
    · have hc : (Core.parallel (voice first others :: vs).reverse).Spelt :=
        ⟨by simp, fun s hs => hvs.1 s (List.mem_reverse.1 hs), fun s hs => hvs.2 s (List.mem_reverse.1 hs)⟩
      exact h.draw_outside hc _

theorem receive (h : r.Spelt) (hp : r.phase = .between) (hr : r.receive l = .ok r') : r'.Spelt := by
  obtain ⟨w, tone, -, htone, rfl⟩ | ⟨-, rfl⟩ | ⟨-, rfl⟩ | ⟨-, rfl⟩ | hr := receive_cases hr
  · have hc : (Core.note tone).Spelt := w.spelt_of_tone? htone
    exact h.draw hc _
  · have hc : Core.rest.Spelt := trivial
    exact h.draw hc _
  · have hb : Bracket.group.Spelt := trivial
    exact h.enter hb _
  · have hb : (Bracket.parallel []).Spelt := ⟨by simp, by simp⟩
    exact h.enter hb _
  · exact h.punctuate hp hr

theorem settle (h : r.Spelt) (hd : d.Spelt) (hr : r.settle d = .ok r') : r'.Spelt := by
  obtain ⟨n, hn, rfl⟩ := bind_pure_eq_ok hr
  exact ⟨h.outer, List.forall_mem_cons.2 ⟨hd.sealed hn, h.here⟩, trivial⟩

theorem marks (h : r.Spelt) (hd : d.Spelt) : (r.at d).Spelt := ⟨h.outer, h.here, hd⟩

theorem mark (h : r.Spelt) (hd : d.Spelt) (hr : r.mark d l = .ok r') : r'.Spelt := by
  obtain ⟨kind, -, rfl⟩ | ⟨-, rfl⟩ | ⟨kind, -, -, rfl⟩ | ⟨s, hs, hr⟩ := mark_cases hr
  · exact ⟨h.outer, h.here, hd⟩
  · exact h.marks (hd.dotted l)
  · have hd' := hd.change kind
    exact h.marks ⟨hd'.core, hd'.factor, hd'.shift, hd'.articulations⟩
  · exact (h.settle hd hs).receive (settle_between hs) hr

theorem step (h : r.Spelt) (hr : r.step l = .ok r') : r'.Spelt := by
  unfold Reading.step at hr
  split at hr
  · next hp => exact h.receive hp hr
  · next d hp => exact h.mark (hp ▸ h.phase : Phase.Spelt (.marks d)) hr
  · next d m hp =>
    obtain ⟨d', hd', rfl⟩ := bind_pure_eq_ok hr
    have hd : d.Spelt := (hp ▸ h.phase : Phase.Spelt (.amount d m))
    exact h.marks (hd.measure hd')

end Reading.Spelt

theorem Reading.Spelt.foldlM {items : List Item} {r r' : Reading} (h : r.Spelt)
    (hr : items.foldlM Reading.take r = .ok r') : r'.Spelt := by
  induction items generalizing r with
  | nil =>
    cases hr
    exact h
  | cons item items ih =>
    rw [List.foldlM_cons] at hr
    cases item with
    | error stray => cases hr
    | ok l =>
      obtain ⟨s, hs, hr⟩ := bind_eq_ok hr
      exact ih (h.step (mapError_eq_ok.1 hs)) hr

theorem Reading.Spelt.finish {r : Reading} {length : Nat} {s : Sequence} (h : r.Spelt)
    (hr : r.finish length = .ok s) : ∀ n ∈ s.elements, n.Spelt := by
  have close : ∀ r : Reading, r.Spelt → r.close length = .ok s → ∀ n ∈ s.elements, n.Spelt := by
    intro r h hr
    unfold Reading.close at hr
    split at hr
    · cases hr
      exact fun n hn => h.here n (List.mem_reverse.1 hn)
    · cases hr
  unfold Reading.finish at hr
  split at hr
  · exact close r h hr
  · next d hp =>
    obtain ⟨r', hr', hr⟩ := bind_eq_ok hr
    exact close r' (h.settle (hp ▸ h.phase : Phase.Spelt (.marks d)) hr') hr
  · cases hr

theorem spelt_of_read {source : List Char} {s : Sequence} (h : read source = .ok s) :
    ∀ n ∈ s.elements, n.Spelt := by
  obtain ⟨r, hr, h⟩ := bind_eq_ok h
  have start : Reading.Spelt {} := ⟨by simp, by simp, trivial⟩
  exact (start.foldlM hr).finish (mapError_eq_ok.1 h)

end Stave.Score
