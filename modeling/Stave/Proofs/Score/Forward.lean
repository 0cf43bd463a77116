import Stave.Proofs.Score.Exact
import Stave.Proofs.Score.Spelt

/-!
# Time runs forward

Where no duration is negative, neither is any beat that a bracket hands down, and no event starts
before its score does or ends before it starts.  A source can spell no negative duration.

    n.Spelt → n.Nonneg                                                    (Node.Spelt.nonneg)
    n.Nonneg → 0 ≤ beat → (n.render start beat).Forward start             (Node.Nonneg.forward)
    read source = .ok s → 0 ≤ start → 0 ≤ c.defaults.beat →
      decode c start s = .ok events →
        there is one event for each note, none starts below zero and
        none has a negative duration                                      (nonneg_of_decode)
-/

namespace Stave.Score

/-! ## Trees -/

/-- No duration and no factor is negative, whatever else the tree is. -/
inductive Node.Nonneg : Node → Prop
  | note {n : Note} (h : 0 ≤ n.duration) : Nonneg (.note n)
  | rest {r : Rest} (h : 0 ≤ r.duration) : Nonneg (.rest r)
  | group {elements : List Node} {factor : Ratio} {span : Span}
      (each : ∀ n ∈ elements, n.Nonneg) (h : 0 ≤ factor) : Nonneg (.group elements factor span)
  | parallel {voices : List Sequence} {factor : Ratio} {span : Span}
      (each : ∀ s ∈ voices, ∀ n ∈ s.elements, n.Nonneg) (h : 0 ≤ factor) :
      Nonneg (.parallel voices factor span)
  | sequence {elements : List Node} {span : Span} (each : ∀ n ∈ elements, n.Nonneg) :
      Nonneg (.sequence ⟨elements, span⟩)

theorem Node.Spelt.nonneg {n : Node} (h : n.Spelt) : n.Nonneg := by
  induction h with
  | note h => exact .note h.duration
  | rest h => exact .rest h
  | group _ _ h ih => exact .group ih h
  | parallel _ _ _ h ih => exact .parallel ih h

/-! ## Beats -/

theorem elementBeats_eq_map (ns : List Node) : elementBeats ns = ns.map Node.beats := by
  induction ns with
  | nil => rfl
  | cons n ns ih => rw [elementBeats, ih, List.map_cons]

theorem elementBeats_sum_nonneg {ns : List Node} (h : ∀ n ∈ ns, 0 ≤ n.beats) :
    0 ≤ (elementBeats ns).sum := by
  rw [elementBeats_eq_map]
  refine List.sum_nonneg fun q hq => ?_
  obtain ⟨n, hn, rfl⟩ := List.mem_map.1 hq
  exact h n hn

/-- Elements take no time together only if each takes none. -/
theorem beats_eq_zero_of_sum {ns : List Node} (h : ∀ n ∈ ns, 0 ≤ n.beats)
    (hsum : (elementBeats ns).sum = 0) : ∀ n ∈ ns, n.beats = 0 := by
  rw [elementBeats_eq_map] at hsum
  intro n hn
  refine List.all_zero_of_le_zero_le_of_sum_eq_zero (fun q hq => ?_) hsum (List.mem_map_of_mem hn)
  obtain ⟨m, hm, rfl⟩ := List.mem_map.1 hq
  exact h m hm

theorem Node.Nonneg.beats_nonneg {n : Node} (h : n.Nonneg) : 0 ≤ n.beats := by
  induction h with
  | note h => exact Ratio.toRat_nonneg.2 h
  | rest h => exact Ratio.toRat_nonneg.2 h
  | group _ h => exact Ratio.toRat_nonneg.2 h
  | parallel _ h =>
    rw [Node.beats]
    refine mul_nonneg (Ratio.toRat_nonneg.2 h) ?_
    exact List.foldlRecOn (motive := (0 ≤ ·)) _ max (le_refl (0 : ℚ)) fun _ hb _ _ =>
      le_max_of_le_left hb
  | sequence _ ih => exact elementBeats_sum_nonneg ih

/-- A share of a time has no negative part. -/
structure Share.Nonneg (g : Share) (elements : List Node) : Prop where
  beat : 0 ≤ g.beat
  slot : ∀ n ∈ elements, 0 ≤ g.slot n

theorem share_nonneg {total : ℚ} {elements : List Node} (ht : 0 ≤ total)
    (h : ∀ n ∈ elements, n.Nonneg) : (share total elements).Nonneg elements := by
  have hsum := elementBeats_sum_nonneg fun n hn => (h n hn).beats_nonneg
  unfold share
  split
  · have heven : 0 ≤ total / elements.length := div_nonneg ht (Nat.cast_nonneg _)
    exact ⟨heven, fun _ _ => heven⟩
  · have hunit : 0 ≤ total / (elementBeats elements).sum := div_nonneg ht hsum
    exact ⟨hunit, fun n hn => mul_nonneg (h n hn).beats_nonneg hunit⟩

/-! ## Renderings -/

/-- A stroke that starts no earlier than some moment and does not last less than nothing. -/
structure Stroke.Follows (start : ℚ) (x : Stroke) : Prop where
  start : start ≤ x.start
  duration : 0 ≤ x.duration

theorem Stroke.Follows.mono {start earlier : ℚ} {x : Stroke} (h : x.Follows start)
    (he : earlier ≤ start) : x.Follows earlier := ⟨he.trans h.start, h.duration⟩

structure Rendering.Forward (start : ℚ) (r : Rendering) : Prop where
  strokes : ∀ x ∈ r.strokes, x.Follows start
  time : 0 ≤ r.time

/-- On any start and beat, a node's strokes follow the start. -/
def Node.Forward (n : Node) : Prop :=
  ∀ start beat : ℚ, 0 ≤ beat → (n.render start beat).Forward start

section

variable {ns : List Node} (hns : ∀ n ∈ ns, n.Forward)

include hns

theorem renderElements_forward (cursor : ℚ) {beat : ℚ} (hb : 0 ≤ beat) :
    (renderElements cursor beat ns).Forward cursor := by
  induction ns generalizing cursor with
  | nil => exact ⟨fun x hx => absurd hx List.not_mem_nil, le_refl _⟩
  | cons n ns ih =>
    have hn := hns n List.mem_cons_self cursor beat hb
    have hrest := ih (fun m hm => hns m (List.mem_cons_of_mem n hm))
      (cursor + (n.render cursor beat).time)
    rw [renderElements]
    refine ⟨?_, add_nonneg hn.time hrest.time⟩
    intro x hx
    rcases List.mem_append.1 hx with hx | hx
    · exact hn.strokes x hx
    · exact (hrest.strokes x hx).mono (le_add_of_nonneg_right hn.time)

theorem renderSlots_forward {g : Share} (hg : g.Nonneg ns) (cursor : ℚ) :
    ∀ x ∈ renderSlots g cursor ns, x.Follows cursor := by
  induction ns generalizing cursor with
  | nil => exact fun x hx => absurd hx List.not_mem_nil
  | cons n ns ih =>
    have hn := hns n List.mem_cons_self cursor g.beat hg.beat
    have hrest := ih (fun m hm => hns m (List.mem_cons_of_mem n hm))
      ⟨hg.beat, fun m hm => hg.slot m (List.mem_cons_of_mem n hm)⟩ (cursor + g.slot n)
    intro x hx
    rw [renderSlots] at hx
    rcases List.mem_append.1 hx with hx | hx
    · exact hn.strokes x hx
    · exact (hrest x hx).mono (le_add_of_nonneg_right (hg.slot n List.mem_cons_self))

end

theorem renderVoices_forward {ss : List Sequence}
    (hss : ∀ s ∈ ss, ∀ n ∈ s.elements, n.Forward) (start : ℚ) {beat : ℚ} (hb : 0 ≤ beat) :
    (renderVoices start beat ss).Forward start := by
  refine ⟨?_, renderVoices_time_nonneg start beat ss⟩
  induction ss with
  | nil => exact fun x hx => absurd hx List.not_mem_nil
  | cons s ss ih =>
    obtain ⟨elements, span⟩ := s
    have hs := renderElements_forward (hss _ List.mem_cons_self) start hb
    have hrest := ih fun t ht => hss t (List.mem_cons_of_mem _ ht)
    intro x hx
    rw [renderVoices] at hx
    rcases List.mem_append.1 hx with hx | hx
    · exact hs.strokes x hx
    · exact hrest x hx

/-- Where no duration is negative, time never turns back. -/
theorem Node.Nonneg.forward {n : Node} (h : n.Nonneg) : n.Forward := by
  induction h with
  | note h =>
    intro start beat hb
    rw [Node.render]
    have hd := mul_nonneg (Ratio.toRat_nonneg.2 h) hb
    refine ⟨?_, hd⟩
    intro x hx
    rw [List.mem_singleton.1 hx]
    exact ⟨le_refl _, hd⟩
  | rest h =>
    intro start beat hb
    rw [Node.render]
    exact ⟨fun x hx => absurd hx List.not_mem_nil, mul_nonneg (Ratio.toRat_nonneg.2 h) hb⟩
  | group each h ih =>
    intro start beat hb
    rw [Node.render]
    have ht := mul_nonneg (Ratio.toRat_nonneg.2 h) hb
    exact ⟨renderSlots_forward ih (share_nonneg ht each) start, ht⟩
  | parallel each h ih =>
    intro start beat hb
    rw [Node.render]
    exact renderVoices_forward ih start (mul_nonneg (Ratio.toRat_nonneg.2 h) hb)
  | sequence each ih =>
    intro start beat hb
    rw [Node.render, Sequence.render]
    exact renderElements_forward ih start hb

/-! ## Decoded scores -/

theorem exists_stroke {c : Setting} {events : List Event} {strokes : List Stroke}
    (h : List.Forall₂ (Plays c) events strokes) {e : Event} (he : e ∈ events) :
    ∃ x ∈ strokes, Plays c e x := by
  induction h with
  | nil => exact absurd he List.not_mem_nil
  | cons hplay _ ih =>
    rcases List.mem_cons.1 he with rfl | he
    · exact ⟨_, List.mem_cons_self, hplay⟩
    · obtain ⟨x, hx, hplay⟩ := ih he
      exact ⟨x, List.mem_cons_of_mem _ hx, hplay⟩

theorem nonneg_of_decode {source : List Char} {s : Sequence} {c : Setting} {start : Ratio}
    {events : List Event} (hread : read source = .ok s) (hstart : 0 ≤ start)
    (hbeat : 0 ≤ c.defaults.beat) (hdecode : decode c start s = .ok events) :
    events.length = s.notes.length ∧
      ∀ e ∈ events, 0 ≤ e.start.toRat ∧ 0 ≤ e.duration.toRat := by
  obtain ⟨elements, span⟩ := s
  obtain ⟨p, hp, rfl⟩ := bind_pure_eq_ok hdecode
  obtain ⟨hplays, -⟩ := playSequence_exact hp
  have hforward := renderElements_forward (fun n hn => (spelt_of_read hread n hn).nonneg.forward)
    start.toRat (Ratio.toRat_nonneg.2 hbeat)
  constructor
  · rw [sortByStart, List.length_mergeSort, hplays.length_eq,
      ← Sequence.notes_render start.toRat c.defaults.beat.toRat, List.length_map]
  · intro e he
    obtain ⟨x, hx, hplay⟩ := exists_stroke hplays (List.mem_mergeSort.1 he)
    have hfollows := hforward.strokes x hx
    rw [hplay.start, hplay.duration]
    exact ⟨(Ratio.toRat_nonneg.2 hstart).trans hfollows.start, hfollows.duration⟩

end Stave.Score
