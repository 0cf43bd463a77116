import Stave.Proofs.Score.Exact

/-!
# Scores in another time

Nothing in a score refers to an absolute time or to an absolute beat.  Played from a later start, or
on a beat that is longer, a score has the same notes in the same order: those of a moved score are
moved, those of a stretched one are stretched.

    0 ≤ f.stretch →
      n.render (f.move start) (f.stretch * beat) = (n.render start beat).moved f   (Node.render_moved)
    sorting strokes that are moved is moving them sorted                           (mergeSort_moved)
    decode from start + t, or from k * start on k times the beat                   (decode_moved)
-/

namespace Stave.Score

/-! ## Motions -/

/-- A change of time: stretched, and then moved. -/
structure Motion where
  stretch : ℚ
  shift : ℚ

def Motion.move (f : Motion) (t : ℚ) : ℚ := f.stretch * t + f.shift

theorem Motion.move_add (f : Motion) (t d : ℚ) : f.move (t + d) = f.move t + f.stretch * d := by
  rw [Motion.move, Motion.move]
  ring

def Stroke.moved (f : Motion) (x : Stroke) : Stroke :=
  ⟨x.note, f.move x.start, f.stretch * x.duration⟩

def Rendering.moved (f : Motion) (r : Rendering) : Rendering :=
  ⟨r.strokes.map (Stroke.moved f), f.stretch * r.time⟩

/-! ## Renderings -/

theorem share_mul (k total : ℚ) (ns : List Node) :
    (share (k * total) ns).beat = k * (share total ns).beat ∧
      ∀ n, (share (k * total) ns).slot n = k * (share total ns).slot n := by
  unfold share
  split
  · exact ⟨mul_div_assoc _ _ _, fun _ => mul_div_assoc _ _ _⟩
  · exact ⟨mul_div_assoc _ _ _, fun n => by rw [mul_div_assoc, mul_left_comm]⟩

section

variable {f : Motion}

mutual

theorem Node.render_moved (hf : 0 ≤ f.stretch) (start beat : ℚ) :
    ∀ n : Node, n.render (f.move start) (f.stretch * beat) = (n.render start beat).moved f
  | .sequence s => Sequence.render_moved hf start beat s
  | .group elements factor span => by
    obtain ⟨hbeat, hslot⟩ := share_mul f.stretch (factor.toRat * beat) elements
    rw [Node.render, Node.render, mul_left_comm, Rendering.moved,
      renderSlots_moved hf start hbeat hslot elements]
  | .parallel voices factor span => by
    rw [Node.render, Node.render, mul_left_comm, renderVoices_moved hf start _ voices]
  | .note n => by
    rw [Node.render, Node.render, mul_left_comm]
    rfl
  | .rest r => by
    rw [Node.render, Node.render, mul_left_comm]
    rfl

theorem Sequence.render_moved (hf : 0 ≤ f.stretch) (start beat : ℚ) :
    ∀ s : Sequence, s.render (f.move start) (f.stretch * beat) = (s.render start beat).moved f
  | ⟨elements, _⟩ => renderElements_moved hf start beat elements

theorem renderElements_moved (hf : 0 ≤ f.stretch) (cursor beat : ℚ) : ∀ ns : List Node,
    renderElements (f.move cursor) (f.stretch * beat) ns = (renderElements cursor beat ns).moved f
  | [] => by
    rw [renderElements, renderElements, Rendering.moved, mul_zero]
    rfl
  | n :: ns => by
    have hn := Node.render_moved hf cursor beat n
    have hns := renderElements_moved hf (cursor + (n.render cursor beat).time) beat ns
    rw [Motion.move_add] at hns
    rw [renderElements, renderElements, hn]
    simp only [Rendering.moved] at hns ⊢
    rw [hns, List.map_append, mul_add]

theorem renderSlots_moved (hf : 0 ≤ f.stretch) {g g' : Share} (cursor : ℚ)
    (hbeat : g'.beat = f.stretch * g.beat) (hslot : ∀ n, g'.slot n = f.stretch * g.slot n) :
    ∀ ns : List Node,
      renderSlots g' (f.move cursor) ns = (renderSlots g cursor ns).map (Stroke.moved f)
  | [] => rfl
  | n :: ns => by
    rw [renderSlots, renderSlots, hbeat, hslot, Node.render_moved hf cursor g.beat n,
      ← Motion.move_add, renderSlots_moved hf _ hbeat hslot ns, List.map_append]
    rfl

/-- The longest voice stays the longest, as the stretch is not negative. -/
theorem renderVoices_moved (hf : 0 ≤ f.stretch) (start beat : ℚ) : ∀ ss : List Sequence,
    renderVoices (f.move start) (f.stretch * beat) ss = (renderVoices start beat ss).moved f
  | [] => by
    rw [renderVoices, renderVoices, Rendering.moved, mul_zero]
    rfl
  | s :: ss => by
    rw [renderVoices, renderVoices, Sequence.render_moved hf start beat s,
      renderVoices_moved hf start beat ss]
    simp only [Rendering.moved, List.map_append, mul_max_of_nonneg _ _ hf]

end

end

/-! ## Events -/

/-- Strokes that are moved stand in the same order. -/
theorem mergeSort_moved {f : Motion} (hf : 0 < f.stretch) (xs : List Stroke) :
    (xs.map (Stroke.moved f)).mergeSort (·.start ≤ ·.start) =
      (xs.mergeSort (·.start ≤ ·.start)).map (Stroke.moved f) := by
  refine (List.map_mergeSort fun x _ y _ => ?_).symm
  refine decide_eq_decide.2 ?_
  show _ ↔ f.stretch * x.start + f.shift ≤ f.stretch * y.start + f.shift
  rw [add_le_add_iff_right, mul_le_mul_iff_right₀ hf]

/-- The second event is the first, in another time. -/
structure Moved (f : Motion) (e e' : Event) : Prop where
  start : e'.start.toRat = f.move e.start.toRat
  duration : e'.duration.toRat = f.stretch * e.duration.toRat
  rest : e' = { e with start := e'.start, duration := e'.duration }

theorem Plays.moved {c : Setting} {f : Motion} {e e' : Event} {x : Stroke} (h : Plays c e x)
    (h' : Plays c e' (x.moved f)) : Moved f e e' := by
  refine ⟨?_, ?_, h.agree h' rfl⟩
  · rw [h'.start, h.start]
    rfl
  · rw [h'.duration, h.duration]
    rfl

theorem events_moved {c : Setting} {f : Motion} {es es' : List Event} {xs : List Stroke}
    (h : List.Forall₂ (Plays c) es xs) (h' : List.Forall₂ (Plays c) es' (xs.map (Stroke.moved f))) :
    List.Forall₂ (Moved f) es es' := by
  rw [List.forall₂_map_right_iff] at h'
  induction h generalizing es' with
  | nil =>
    rw [List.forall₂_nil_right_iff.1 h']
    exact .nil
  | cons hplay _ ih =>
    cases h' with
    | cons hplay' hplays' => exact .cons (hplay.moved hplay') (ih hplays')

/-- The setting with another default beat. -/
def Setting.withBeat (c : Setting) (beat : Ratio) : Setting :=
  { c with defaults := { c.defaults with beat } }

/-- How a note sounds does not depend on the default beat. -/
theorem Plays.withBeat {c : Setting} {beat : Ratio} {e : Event} {x : Stroke}
    (h : Plays (c.withBeat beat) e x) : Plays c e x :=
  ⟨h.pitch, h.start, h.duration, h.velocity, h.articulation⟩

theorem decodeNode_moved {c : Setting} {f : Motion} {start start' beat' : Ratio} {n : Node}
    {p q : Passage} (hf : 0 < f.stretch) (hstart : start'.toRat = f.move start.toRat)
    (hbeat : beat'.toRat = f.stretch * c.defaults.beat.toRat) (hp : decodeNode c start n = .ok p)
    (hq : decodeNode (c.withBeat beat') start' n = .ok q) :
    List.Forall₂ (Moved f) p.events q.events ∧ q.time.toRat = f.stretch * p.time.toRat := by
  obtain ⟨hevents, htime⟩ := decodeNode_exact hp
  obtain ⟨hevents', htime'⟩ := decodeNode_exact hq
  have hmoved : n.render start'.toRat (c.withBeat beat').defaults.beat.toRat =
      (n.render start.toRat c.defaults.beat.toRat).moved f := by
    rw [← Node.render_moved hf.le, ← hstart, ← hbeat]
    rfl
  rw [hmoved] at hevents' htime'
  have hsorted : List.Forall₂ (Plays c) q.events _ := hevents'.imp fun _ _ => Plays.withBeat
  rw [Rendering.moved, mergeSort_moved hf] at hsorted
  refine ⟨events_moved hevents hsorted, ?_⟩
  rw [htime', htime]
  rfl

/-! ## Later, and slower -/

/-- The second event is the first, but starts later by a ratio. -/
structure Shifted (t : Ratio) (e e' : Event) : Prop where
  start : e.start.add? t = some e'.start
  rest : e' = { e with start := e'.start }

/-- The second event is the first, but starts and lasts a ratio of it. -/
structure Stretched (k : Ratio) (e e' : Event) : Prop where
  start : e.start.mul? k = some e'.start
  duration : e.duration.mul? k = some e'.duration
  rest : e' = { e with start := e'.start, duration := e'.duration }

theorem Moved.shifted {t : Ratio} {e e' : Event} (h : Moved ⟨1, t.toRat⟩ e e') :
    Shifted t e e' := by
  have hduration : e'.duration = e.duration :=
    Ratio.toRat_injective (h.duration.trans (one_mul _))
  have hrest := h.rest
  rw [hduration] at hrest
  refine ⟨Ratio.add?_eq_some_iff.2 ?_, hrest⟩
  rw [h.start, Motion.move, one_mul]

theorem Moved.stretched {k : Ratio} {e e' : Event} (h : Moved ⟨k.toRat, 0⟩ e e') :
    Stretched k e e' := by
  refine ⟨Ratio.mul?_eq_some_iff.2 ?_, Ratio.mul?_eq_some_iff.2 ?_, h.rest⟩
  · rw [h.start, Motion.move, add_zero, mul_comm]
  · rw [h.duration, mul_comm]

/-- A score that starts later has the same events, each later by as much.  On a default beat that is
longer, from a start that is later in the same ratio, it has the same events, each stretched by that
ratio.  Their order stays, whatever the score nests, and the time that it takes stays or is
stretched as well. -/
theorem decode_moved (c : Setting) (start : Ratio) :
    (∀ t start', start.add? t = some start' →
      (∀ n p q, decodeNode c start n = .ok p → decodeNode c start' n = .ok q →
        List.Forall₂ (Shifted t) p.events q.events ∧ q.time = p.time) ∧
      ∀ s events events', decode c start s = .ok events → decode c start' s = .ok events' →
        List.Forall₂ (Shifted t) events events') ∧
    ∀ k start' beat', 0 < k → start.mul? k = some start' → c.defaults.beat.mul? k = some beat' →
      (∀ n p q, decodeNode c start n = .ok p → decodeNode (c.withBeat beat') start' n = .ok q →
        List.Forall₂ (Stretched k) p.events q.events ∧ p.time.mul? k = some q.time) ∧
      ∀ s events events', decode c start s = .ok events →
        decode (c.withBeat beat') start' s = .ok events' →
        List.Forall₂ (Stretched k) events events' := by
  constructor
  · intro t start' hstart
    have hnode : ∀ n p q, decodeNode c start n = .ok p → decodeNode c start' n = .ok q →
        List.Forall₂ (Shifted t) p.events q.events ∧ q.time = p.time := by
      intro n p q hp hq
      have hmove : start'.toRat = Motion.move ⟨1, t.toRat⟩ start.toRat := by
        rw [Ratio.add?_eq_some_iff.1 hstart, Motion.move, one_mul]
      obtain ⟨hevents, htime⟩ := decodeNode_moved one_pos hmove (one_mul _).symm hp hq
      exact ⟨hevents.imp fun _ _ => Moved.shifted,
        Ratio.toRat_injective (htime.trans (one_mul _))⟩
    refine ⟨hnode, fun s events events' h h' => ?_⟩
    obtain ⟨time, hp⟩ := exists_decodeNode h
    obtain ⟨time', hq⟩ := exists_decodeNode h'
    exact (hnode _ _ _ hp hq).1
  · intro k start' beat' hk hstart hbeat
    have hnode : ∀ n p q, decodeNode c start n = .ok p →
        decodeNode (c.withBeat beat') start' n = .ok q →
        List.Forall₂ (Stretched k) p.events q.events ∧ p.time.mul? k = some q.time := by
      intro n p q hp hq
      have hmove : start'.toRat = Motion.move ⟨k.toRat, 0⟩ start.toRat := by
        rw [Ratio.mul?_eq_some_iff.1 hstart, Motion.move, add_zero, mul_comm]
      have hbeat' : beat'.toRat = k.toRat * c.defaults.beat.toRat := by
        rw [Ratio.mul?_eq_some_iff.1 hbeat, mul_comm]
      obtain ⟨hevents, htime⟩ := decodeNode_moved (Ratio.toRat_pos.2 hk) hmove hbeat' hp hq
      refine ⟨hevents.imp fun _ _ => Moved.stretched, Ratio.mul?_eq_some_iff.2 ?_⟩
      rw [htime, mul_comm]
    refine ⟨hnode, fun s events events' h h' => ?_⟩
    obtain ⟨time, hp⟩ := exists_decodeNode h
    obtain ⟨time', hq⟩ := exists_decodeNode h'
    exact (hnode _ _ _ hp hq).1

def threeHalves : Ratio := ⟨3, 2, by decide, by decide, by decide, by decide⟩

/-- A score from beat one, seven beats later, and half as slow again. -/
theorem decode_moved_nested : ∃ s events shifted stretched,
    read "([4 5, 6!]/2 (0@0 1@0)@3)@5 C4".toList = .ok s ∧
    decode plainSetting 1 s = .ok events ∧ events.length = 6 ∧
    decode plainSetting (.ofInt 8 (by decide)) s = .ok shifted ∧
    List.Forall₂ (Shifted (.ofInt 7 (by decide))) events shifted ∧
    decode (plainSetting.withBeat threeHalves) threeHalves s = .ok stretched ∧
    List.Forall₂ (Stretched threeHalves) events stretched := by
  have hplays : ((read "([4 5, 6!]/2 (0@0 1@0)@3)@5 C4".toList).toOption.bind fun s =>
      (playSequence plainSetting 1 1 s).toOption.bind fun p =>
      (playSequence plainSetting (.ofInt 8 (by decide)) 1 s).toOption.bind fun _ =>
      (playSequence (plainSetting.withBeat threeHalves) threeHalves threeHalves s).toOption.map
        fun _ => p.events.length) = some 6 := by
    decide +kernel
  obtain ⟨s, hs, hplays⟩ := Option.bind_eq_some_iff.1 hplays
  obtain ⟨p, hp, hplays⟩ := Option.bind_eq_some_iff.1 hplays
  obtain ⟨later, hlater, hplays⟩ := Option.bind_eq_some_iff.1 hplays
  obtain ⟨slower, hslower, hsix⟩ := Option.map_eq_some_iff.1 hplays
  rw [toOption_eq_some] at hs hp hlater hslower
  have hdecode := decode_of_play hp
  have hshifted := decode_of_play hlater
  have hstretched := decode_of_play hslower
  obtain ⟨hshifts, hstretches⟩ := decode_moved plainSetting 1
  refine ⟨s, _, _, _, hs, hdecode, ?_, hshifted, ?_, hstretched, ?_⟩
  · rw [sortByStart, List.length_mergeSort, hsix]
  · exact (hshifts (.ofInt 7 (by decide)) _ (by decide)).2 s _ _ hdecode hshifted
  · exact (hstretches threeHalves threeHalves threeHalves (by decide) (by decide) (by decide)).2
      s _ _ hdecode hstretched

end Stave.Score
