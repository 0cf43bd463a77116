import Mathlib.Data.List.Forall2
import Stave.Proofs.Except
import Stave.Proofs.Ratio
import Stave.Score.Decode
import Stave.Score.Reader

/-!
# Decoding in exact time

A score has a meaning over the rational numbers, where no number is too fine or too large to hold:
each note sounds at an exact start for an exact duration.  Where decoding answers at all, it answers
with that meaning, sorted by start.

    n.length? = some q → q.toRat = n.beats                                (Node.toRat_of_length?)
    playNode c start beat n = .ok p →
      p.Exact c (n.render start.toRat beat.toRat)                         (playNode_exact)
    decode c start s = .ok events →
      events play s.render start.toRat c.defaults.beat.toRat, one for
      each note of s, stably sorted by start                              (decode_exact)
-/

namespace Stave.Score

/-! ## Exact time -/

mutual

/-- What a node takes when its beat is one. -/
def Node.beats : Node → ℚ
  | .sequence s => s.beats
  | .group _ factor _ => factor.toRat
  | .parallel voices factor _ => factor.toRat * (voiceBeats voices).foldl max 0
  | .note n => n.duration.toRat
  | .rest r => r.duration.toRat

def Sequence.beats : Sequence → ℚ
  | ⟨elements, _⟩ => (elementBeats elements).sum

def elementBeats : List Node → List ℚ
  | [] => []
  | n :: ns => n.beats :: elementBeats ns

def voiceBeats : List Sequence → List ℚ
  | [] => []
  | s :: ss => s.beats :: voiceBeats ss

end

/-- What a group gives to its elements: a common beat, and a slot to each. -/
structure Share where
  beat : ℚ
  slot : Node → ℚ

/-- A group's time is shared by lengths, or evenly when these sum to nothing. -/
def share (total : ℚ) (elements : List Node) : Share :=
  if (elementBeats elements).sum = 0 then
    ⟨total / elements.length, fun _ => total / elements.length⟩
  else
    ⟨total / (elementBeats elements).sum, fun n => n.beats * (total / (elementBeats elements).sum)⟩

/-- A note of a score with the exact time at which it sounds. -/
structure Stroke where
  note : Note
  start : ℚ
  duration : ℚ

/-- Strokes in source order and the time they take. -/
structure Rendering where
  strokes : List Stroke
  time : ℚ

mutual

def Node.render (start beat : ℚ) : Node → Rendering
  | .sequence s => s.render start beat
  | .group elements factor _ =>
    ⟨renderSlots (share (factor.toRat * beat) elements) start elements, factor.toRat * beat⟩
  | .parallel voices factor _ => renderVoices start (factor.toRat * beat) voices
  | .note n => ⟨[⟨n, start, n.duration.toRat * beat⟩], n.duration.toRat * beat⟩
  | .rest r => ⟨[], r.duration.toRat * beat⟩

def Sequence.render (start beat : ℚ) : Sequence → Rendering
  | ⟨elements, _⟩ => renderElements start beat elements

def renderElements (cursor beat : ℚ) : List Node → Rendering
  | [] => ⟨[], 0⟩
  | n :: ns =>
    let r := n.render cursor beat
    let rest := renderElements (cursor + r.time) beat ns
    ⟨r.strokes ++ rest.strokes, r.time + rest.time⟩

def renderSlots (g : Share) (cursor : ℚ) : List Node → List Stroke
  | [] => []
  | n :: ns => (n.render cursor g.beat).strokes ++ renderSlots g (cursor + g.slot n) ns

def renderVoices (start beat : ℚ) : List Sequence → Rendering
  | [] => ⟨[], 0⟩
  | s :: ss =>
    let r := s.render start beat
    let rest := renderVoices start beat ss
    ⟨r.strokes ++ rest.strokes, max r.time rest.time⟩

end

mutual

/-- The notes of a node in source order. -/
def Node.notes : Node → List Note
  | .sequence s => s.notes
  | .group elements _ _ => elementNotes elements
  | .parallel voices _ _ => voiceNotes voices
  | .note n => [n]
  | .rest _ => []

def Sequence.notes : Sequence → List Note
  | ⟨elements, _⟩ => elementNotes elements

def elementNotes : List Node → List Note
  | [] => []
  | n :: ns => n.notes ++ elementNotes ns

def voiceNotes : List Sequence → List Note
  | [] => []
  | s :: ss => s.notes ++ voiceNotes ss

end

/-- An event plays a stroke if it sounds the stroke's note at its time. -/
structure Plays (c : Setting) (e : Event) (x : Stroke) : Prop where
  pitch : pitchOf? c x.note = some e.pitch
  start : e.start.toRat = x.start
  duration : e.duration.toRat = x.duration
  velocity : e.velocity =
    if x.note.isAccented then c.defaults.accentVelocity else c.defaults.velocity
  articulation : e.articulation = x.note.articulation

/-- All but its times an event has from its note, and not from the length that is written there. -/
theorem Plays.agree {c : Setting} {e e' : Event} {x y : Stroke} (h : Plays c e x)
    (h' : Plays c e' y) (hnote : { x.note with duration := 0 } = { y.note with duration := 0 }) :
    e' = { e with start := e'.start, duration := e'.duration } := by
  obtain ⟨⟨tone, _, shift, marks, span⟩, start, duration⟩ := x
  obtain ⟨⟨tone', _, shift', marks', span'⟩, start', duration'⟩ := y
  cases hnote
  obtain ⟨pitch, estart, eduration, velocity, articulation⟩ := e
  obtain ⟨pitch', estart', eduration', velocity', articulation'⟩ := e'
  obtain rfl : pitch = pitch' := Option.some.inj (h.pitch.symm.trans h'.pitch)
  obtain rfl : velocity = velocity' := h.velocity.trans h'.velocity.symm
  obtain rfl : articulation = articulation' := h.articulation.trans h'.articulation.symm
  rfl

/-! ## One stroke for each note -/

mutual

theorem Node.notes_render (start beat : ℚ) :
    ∀ n : Node, (n.render start beat).strokes.map Stroke.note = n.notes
  | .sequence s => Sequence.notes_render start beat s
  | .group elements factor _ => notes_renderSlots (share (factor.toRat * beat) elements) start elements
  | .parallel voices factor _ => notes_renderVoices start (factor.toRat * beat) voices
  | .note _ => rfl
  | .rest _ => rfl

theorem Sequence.notes_render (start beat : ℚ) :
    ∀ s : Sequence, (s.render start beat).strokes.map Stroke.note = s.notes
  | ⟨elements, _⟩ => notes_renderElements start beat elements

theorem notes_renderElements (cursor beat : ℚ) :
    ∀ ns : List Node, (renderElements cursor beat ns).strokes.map Stroke.note = elementNotes ns
  | [] => rfl
  | n :: ns => by
    simp only [renderElements, elementNotes, List.map_append]
    rw [Node.notes_render cursor beat n, notes_renderElements _ beat ns]

theorem notes_renderSlots (g : Share) (cursor : ℚ) :
    ∀ ns : List Node, (renderSlots g cursor ns).map Stroke.note = elementNotes ns
  | [] => rfl
  | n :: ns => by
    simp only [renderSlots, elementNotes, List.map_append]
    rw [Node.notes_render cursor g.beat n, notes_renderSlots g _ ns]

theorem notes_renderVoices (start beat : ℚ) :
    ∀ ss : List Sequence, (renderVoices start beat ss).strokes.map Stroke.note = voiceNotes ss
  | [] => rfl
  | s :: ss => by
    simp only [renderVoices, voiceNotes, List.map_append]
    rw [Sequence.notes_render start beat s, notes_renderVoices start beat ss]

end

/-! ## Lengths that can be held are exact -/

mutual

theorem Node.toRat_of_length? {q : Ratio} : ∀ {n : Node}, n.length? = some q → q.toRat = n.beats
  | .sequence s, h => Sequence.toRat_of_length? (s := s) h
  | .group _ factor _, h => congrArg Ratio.toRat (Option.some.inj h).symm
  | .parallel voices factor _, h => by
    rw [Node.length?] at h
    obtain ⟨qs, hqs, h⟩ := Option.bind_eq_some_iff.1 h
    rw [Ratio.mul?_eq_some_iff.1 h, longest, Ratio.toRat_foldl_max, toRat_of_voiceLengths? hqs]
    rfl
  | .note n, h => congrArg Ratio.toRat (Option.some.inj h).symm
  | .rest r, h => congrArg Ratio.toRat (Option.some.inj h).symm

theorem Sequence.toRat_of_length? {q : Ratio} :
    ∀ {s : Sequence}, s.length? = some q → q.toRat = s.beats
  | ⟨elements, _⟩, h => by
    rw [Sequence.length?] at h
    obtain ⟨qs, hqs, h⟩ := Option.bind_eq_some_iff.1 h
    rw [Ratio.toRat_of_sum? h, toRat_of_lengths? hqs]
    rfl

theorem toRat_of_lengths? {qs : List Ratio} :
    ∀ {ns : List Node}, lengths? ns = some qs → qs.map Ratio.toRat = elementBeats ns
  | [], h => by rw [← Option.some.inj h]; rfl
  | n :: ns, h => by
    rw [lengths?] at h
    obtain ⟨q, hq, h⟩ := Option.bind_eq_some_iff.1 h
    obtain ⟨rest, hrest, h⟩ := Option.bind_eq_some_iff.1 h
    rw [← Option.some.inj h, List.map_cons, Node.toRat_of_length? hq, toRat_of_lengths? hrest]
    rfl

theorem toRat_of_voiceLengths? {qs : List Ratio} :
    ∀ {ss : List Sequence}, voiceLengths? ss = some qs → qs.map Ratio.toRat = voiceBeats ss
  | [], h => by rw [← Option.some.inj h]; rfl
  | s :: ss, h => by
    rw [voiceLengths?] at h
    obtain ⟨q, hq, h⟩ := Option.bind_eq_some_iff.1 h
    obtain ⟨rest, hrest, h⟩ := Option.bind_eq_some_iff.1 h
    rw [← Option.some.inj h, List.map_cons, Sequence.toRat_of_length? hq,
      toRat_of_voiceLengths? hrest]
    rfl

end

theorem toRat_of_weight? {ns : List Node} {q : Ratio} (h : weight? ns = some q) :
    q.toRat = (elementBeats ns).sum := by
  obtain ⟨qs, hqs, h⟩ := Option.bind_eq_some_iff.1 h
  rw [Ratio.toRat_of_sum? h, toRat_of_lengths? hqs]

theorem inTime_eq_ok {span : Span} {t : Option Ratio} {q : Ratio} (h : inTime span t = .ok q) :
    t = some q := by
  cases t with
  | none => cases h
  | some t => rw [Except.ok.inj h]

/-! ## Groups divide their time exactly -/

structure Division.Exact (d : Division) (g : Share) : Prop where
  beat : d.beat.toRat = g.beat
  slot : ∀ {n : Node} {q : Ratio}, d.slot n = .ok q → q.toRat = g.slot n

theorem toRat_of_ofInt? {n : Int} {q : Ratio} (h : Ratio.ofInt? n = some q) : q.toRat = n := by
  unfold Ratio.ofInt? at h
  split at h
  · next hn => rw [← Option.some.inj h, Ratio.toRat_ofInt]
  · cases h

theorem divide?_exact {total weight : Ratio} {elements : List Node} {d : Division}
    (hw : weight? elements = some weight) (h : divide? total weight elements.length = some d) :
    d.Exact (share total.toRat elements) := by
  have hsum := toRat_of_weight? hw
  unfold divide? at h
  unfold share
  split at h
  · next hz =>
    rw [if_pos (hsum ▸ (Ratio.isZero_iff weight).1 hz)]
    obtain ⟨count, hcount, h⟩ := Option.bind_eq_some_iff.1 h
    obtain ⟨beat, hbeat, h⟩ := Option.bind_eq_some_iff.1 h
    have hb : beat.toRat = total.toRat / elements.length := by
      rw [Ratio.toRat_of_div? hbeat, toRat_of_ofInt? hcount]
      rfl
    rw [← Option.some.inj h]
    refine ⟨hb, fun hq => ?_⟩
    rw [← Except.ok.inj hq]
    exact hb
  · next hz =>
    rw [if_neg fun h0 => hz ((Ratio.isZero_iff weight).2 (hsum ▸ h0))]
    obtain ⟨beat, hbeat, h⟩ := Option.bind_eq_some_iff.1 h
    have hb : beat.toRat = total.toRat / (elementBeats elements).sum := by
      rw [Ratio.toRat_of_div? hbeat, hsum]
    rw [← Option.some.inj h]
    refine ⟨hb, fun hq => ?_⟩
    obtain ⟨length, hlength, hq⟩ := bind_eq_ok hq
    rw [Ratio.mul?_eq_some_iff.1 (inTime_eq_ok hq), Node.toRat_of_length? (inTime_eq_ok hlength), hb]

/-! ## Playing -/

theorem renderVoices_time_nonneg (start beat : ℚ) (ss : List Sequence) :
    0 ≤ (renderVoices start beat ss).time := by
  induction ss with
  | nil => exact le_refl _
  | cons s ss ih => exact le_max_of_le_right ih

structure Passage.Exact (p : Passage) (c : Setting) (r : Rendering) : Prop where
  events : List.Forall₂ (Plays c) p.events r.strokes
  time : p.time.toRat = r.time

theorem eventOf_plays {c : Setting} {n : Note} {start duration : Ratio} {e : Event}
    (h : eventOf c n start duration = .ok e) : Plays c e ⟨n, start.toRat, duration.toRat⟩ := by
  unfold eventOf at h
  split at h
  · next pitch hp =>
    rw [← Except.ok.inj h]
    exact ⟨hp, rfl, rfl, rfl, rfl⟩
  · cases h

section

variable {c : Setting}

mutual

/-- What a node plays is its meaning, whatever brackets it nests. -/
theorem playNode_exact {start beat : Ratio} {p : Passage} :
    ∀ {n : Node}, playNode c start beat n = .ok p → p.Exact c (n.render start.toRat beat.toRat)
  | .sequence s, h => playSequence_exact (s := s) h
  | .group [] factor _, h => by
    obtain ⟨total, htotal, h⟩ := bind_eq_ok h
    obtain ⟨weight, hweight, h⟩ := bind_eq_ok h
    rw [← Except.ok.inj h]
    exact ⟨.nil, Ratio.mul?_eq_some_iff.1 (inTime_eq_ok htotal)⟩
  | .group (n :: ns) factor _, h => by
    obtain ⟨total, htotal, h⟩ := bind_eq_ok h
    obtain ⟨weight, hweight, h⟩ := bind_eq_ok h
    have ht := Ratio.mul?_eq_some_iff.1 (inTime_eq_ok htotal)
    cases hd : divide? total weight (n :: ns).length with
    | none =>
      simp only [hd] at h
      cases h
    | some d =>
      simp only [hd] at h
      obtain ⟨events, hevents, rfl⟩ := bind_pure_eq_ok h
      refine ⟨?_, ht⟩
      show List.Forall₂ (Plays c) events (renderSlots _ _ _)
      rw [← ht]
      exact playSlots_exact (divide?_exact (inTime_eq_ok hweight) hd) hevents
  | .parallel voices factor _, h => by
    rw [playNode] at h
    obtain ⟨voiceBeat, hbeat, h⟩ := bind_eq_ok h
    obtain ⟨hevents, htime⟩ := playVoices_exact (le_refl _) h
    rw [Ratio.mul?_eq_some_iff.1 (inTime_eq_ok hbeat)] at hevents htime
    exact ⟨hevents, htime.trans (max_eq_right (renderVoices_time_nonneg _ _ voices))⟩
  | .note n, h => by
    rw [playNode] at h
    obtain ⟨duration, hduration, h⟩ := bind_eq_ok h
    obtain ⟨_, _, h⟩ := bind_eq_ok h
    obtain ⟨e, he, rfl⟩ := bind_pure_eq_ok h
    have hd := Ratio.mul?_eq_some_iff.1 (inTime_eq_ok hduration)
    refine ⟨.cons ?_ .nil, hd⟩
    rw [← hd]
    exact eventOf_plays he
  | .rest r, h => by
    rw [playNode] at h
    obtain ⟨duration, hduration, rfl⟩ := bind_pure_eq_ok h
    exact ⟨.nil, Ratio.mul?_eq_some_iff.1 (inTime_eq_ok hduration)⟩

theorem playSequence_exact {start beat : Ratio} {p : Passage} : ∀ {s : Sequence},
    playSequence c start beat s = .ok p → p.Exact c (s.render start.toRat beat.toRat)
  | ⟨elements, _⟩, h => by
    rw [playSequence] at h
    obtain ⟨inner, hinner, h⟩ := bind_eq_ok h
    obtain ⟨time, htime, rfl⟩ := bind_pure_eq_ok h
    obtain ⟨hevents, hend⟩ := playElements_exact hinner
    refine ⟨hevents, ?_⟩
    rw [Ratio.sub?_eq_some_iff.1 (inTime_eq_ok htime), hend, add_sub_cancel_left]
    rfl

/-- The time answered is the cursor after the last element. -/
theorem playElements_exact {cursor beat : Ratio} {p : Passage} : ∀ {ns : List Node},
    playElements c cursor beat ns = .ok p →
      List.Forall₂ (Plays c) p.events (renderElements cursor.toRat beat.toRat ns).strokes ∧
      p.time.toRat = cursor.toRat + (renderElements cursor.toRat beat.toRat ns).time
  | [], h => by
    rw [← Except.ok.inj h]
    exact ⟨.nil, (add_zero _).symm⟩
  | n :: ns, h => by
    rw [playElements] at h
    obtain ⟨first, hfirst, h⟩ := bind_eq_ok h
    obtain ⟨next, hnext, h⟩ := bind_eq_ok h
    obtain ⟨rest, hrest, rfl⟩ := bind_pure_eq_ok h
    have hn := playNode_exact hfirst
    obtain ⟨hevents, htime⟩ := playElements_exact hrest
    rw [Ratio.add?_eq_some_iff.1 (inTime_eq_ok hnext), hn.time] at hevents htime
    exact ⟨List.rel_append hn.events hevents, by rw [htime, add_assoc]; rfl⟩

theorem playSlots_exact {d : Division} {g : Share} (hd : d.Exact g) {cursor : Ratio}
    {events : List Event} : ∀ {ns : List Node}, playSlots c d cursor ns = .ok events →
      List.Forall₂ (Plays c) events (renderSlots g cursor.toRat ns)
  | [], h => by
    rw [← Except.ok.inj h]
    exact .nil
  | n :: ns, h => by
    rw [playSlots] at h
    obtain ⟨slot, hslot, h⟩ := bind_eq_ok h
    obtain ⟨first, hfirst, h⟩ := bind_eq_ok h
    obtain ⟨next, hnext, h⟩ := bind_eq_ok h
    obtain ⟨rest, hrest, rfl⟩ := bind_pure_eq_ok h
    have hn := playNode_exact hfirst
    have hns := playSlots_exact hd hrest
    rw [hd.beat] at hn
    rw [Ratio.add?_eq_some_iff.1 (inTime_eq_ok hnext), hd.slot hslot] at hns
    exact List.rel_append hn.events hns

/-- Carrying the longest voice so far is taking the maximum at the end, as none is below zero. -/
theorem playVoices_exact {start beat longest : Ratio} {p : Passage} (hl : 0 ≤ longest.toRat) :
    ∀ {ss : List Sequence}, playVoices c start beat longest ss = .ok p →
      List.Forall₂ (Plays c) p.events (renderVoices start.toRat beat.toRat ss).strokes ∧
      p.time.toRat = max longest.toRat (renderVoices start.toRat beat.toRat ss).time
  | [], h => by
    rw [← Except.ok.inj h]
    exact ⟨.nil, (max_eq_left hl).symm⟩
  | s :: ss, h => by
    rw [playVoices] at h
    obtain ⟨first, hfirst, h⟩ := bind_eq_ok h
    obtain ⟨rest, hrest, rfl⟩ := bind_pure_eq_ok h
    have hs := playSequence_exact hfirst
    have hl' : 0 ≤ (max longest first.time).toRat := by
      rw [Ratio.toRat_max]
      exact le_max_of_le_left hl
    obtain ⟨hevents, htime⟩ := playVoices_exact hl' hrest
    refine ⟨List.rel_append hs.events hevents, ?_⟩
    rw [htime, Ratio.toRat_max, hs.time, max_assoc]
    rfl

end

end

/-! ## Whole scores -/

/-- Lists related entry by entry stay so when both are sorted by keys that agree. -/
theorem forall₂_mergeSort {α β : Type} {r : α → β → Prop} {le : α → α → Bool} {le' : β → β → Bool}
    {as : List α} {bs : List β} (h : List.Forall₂ r as bs)
    (hle : ∀ {a a' b b'}, r a b → r a' b' → le a a' = le' b b') :
    List.Forall₂ r (as.mergeSort le) (bs.mergeSort le') := by
  obtain ⟨hlen, hr⟩ := List.forall₂_iff_zip.1 h
  obtain ⟨xs, rfl, rfl, hxs⟩ :
      ∃ xs : List (α × β), xs.map Prod.fst = as ∧ xs.map Prod.snd = bs ∧ ∀ x ∈ xs, r x.1 x.2 :=
    ⟨as.zip bs, List.map_fst_zip hlen.le, List.map_snd_zip hlen.ge, fun _ hx => hr hx⟩
  rw [← List.map_mergeSort (r := fun x y => le x.1 y.1) fun _ _ _ _ => rfl,
    ← List.map_mergeSort (r := fun x y => le x.1 y.1) fun x hx y hy => hle (hxs x hx) (hxs y hy),
    List.forall₂_map_left_iff, List.forall₂_map_right_iff, List.forall₂_same]
  intro x hx
  exact hxs x (List.mem_mergeSort.1 hx)

theorem plays_sortByStart {c : Setting} {events : List Event} {strokes : List Stroke}
    (h : List.Forall₂ (Plays c) events strokes) :
    List.Forall₂ (Plays c) (sortByStart events) (strokes.mergeSort (·.start ≤ ·.start)) := by
  refine forall₂_mergeSort h fun hx hy => ?_
  rw [← hx.start, ← hy.start]
  simp only [Ratio.toRat_le_toRat]

/-- The events of a score are its strokes in exact time, stably sorted by start. -/
theorem decode_exact {c : Setting} {start : Ratio} {s : Sequence} {events : List Event}
    (h : decode c start s = .ok events) :
    (s.render start.toRat c.defaults.beat.toRat).strokes.map Stroke.note = s.notes ∧
    List.Forall₂ (Plays c) events
      ((s.render start.toRat c.defaults.beat.toRat).strokes.mergeSort (·.start ≤ ·.start)) := by
  obtain ⟨p, hp, rfl⟩ := bind_pure_eq_ok h
  constructor
  · exact Sequence.notes_render _ _ s
  · exact plays_sortByStart (playSequence_exact hp).events

theorem decode_eq {c : Setting} {start : Ratio} (s : Sequence) :
    decode c start s = (decodeNode c start (.sequence s)).map Passage.events := by
  rw [decode, decodeNode, playNode]
  cases playSequence c start c.defaults.beat s <;> rfl

theorem decode_of_play {c : Setting} {start : Ratio} {s : Sequence} {p : Passage}
    (h : playSequence c start c.defaults.beat s = .ok p) :
    decode c start s = .ok (sortByStart p.events) := by
  rw [decode, h]
  rfl

theorem decodeNode_of_play {c : Setting} {start : Ratio} {n : Node} {p : Passage}
    (h : playNode c start c.defaults.beat n = .ok p) :
    decodeNode c start n = .ok ⟨sortByStart p.events, p.time⟩ := by
  rw [decodeNode, h]
  rfl

/-- A score is decoded as the node that it is. -/
theorem exists_decodeNode {c : Setting} {start : Ratio} {s : Sequence} {events : List Event}
    (h : decode c start s = .ok events) :
    ∃ time, decodeNode c start (.sequence s) = .ok ⟨events, time⟩ := by
  rw [decode_eq] at h
  cases hp : decodeNode c start (.sequence s) with
  | error e =>
    rw [hp] at h
    cases h
  | ok p =>
    rw [hp] at h
    rw [← Except.ok.inj h]
    exact ⟨p.time, rfl⟩

theorem decodeNode_exact {c : Setting} {start : Ratio} {n : Node} {p : Passage}
    (h : decodeNode c start n = .ok p) :
    List.Forall₂ (Plays c) p.events
      ((n.render start.toRat c.defaults.beat.toRat).strokes.mergeSort (·.start ≤ ·.start)) ∧
    p.time.toRat = (n.render start.toRat c.defaults.beat.toRat).time := by
  obtain ⟨q, hq, rfl⟩ := bind_pure_eq_ok h
  obtain ⟨hevents, htime⟩ := playNode_exact hq
  exact ⟨plays_sortByStart hevents, htime⟩

/-- C major, and nothing else said. -/
def plainSetting : Setting where
  scale := ⟨60, [2, 2, 1, 2, 2, 2, 1], "major", by decide, by decide⟩

theorem decode_exact_nested : ∃ s events,
    read "(0 2@3) [4 5, 6!] (0@0 1@0)".toList = .ok s ∧ decode plainSetting 0 s = .ok events ∧
    s.notes.length = 7 ∧ List.Forall₂ (Plays plainSetting) events
      ((s.render 0 1).strokes.mergeSort (·.start ≤ ·.start)) := by
  have hplays : ((read "(0 2@3) [4 5, 6!] (0@0 1@0)".toList).toOption.bind fun s =>
      (playSequence plainSetting 0 1 s).toOption.map fun _ => s.notes.length) = some 7 := by
    decide +kernel
  cases hread : read "(0 2@3) [4 5, 6!] (0@0 1@0)".toList with
  | error e =>
    rw [hread] at hplays
    cases hplays
  | ok s =>
    rw [hread] at hplays
    cases hp : playSequence plainSetting 0 1 s with
    | error e =>
      simp [hp, Except.toOption] at hplays
    | ok p =>
      have hd : decode plainSetting 0 s = .ok (sortByStart p.events) := by
        show (playSequence plainSetting 0 1 s >>= _) = _
        rw [hp]
        rfl
      have hn : s.notes.length = 7 := by simpa [hp, Except.toOption] using hplays
      exact ⟨s, _, rfl, hd, hn, (decode_exact hd).2⟩

end Stave.Score
