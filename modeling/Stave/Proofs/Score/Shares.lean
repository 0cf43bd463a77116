import Stave.Proofs.Score.Bare
import Stave.Proofs.Score.Parts

/-!
# How a group divides its time

A group takes its own time and no other.  Each element starts where the lengths before it say, or,
where the lengths add up to nothing, where its number says, and the last slot ends where the group
does.  So only the ratios of the lengths count, and not the lengths themselves.

    slot i of t starts at start + elapsed total lengths i, and the last ends
      at start + total                                                       (playGroup_fills)
    n.Scaled k m: m is n with its own duration or factor multiplied by k
    n.Scaled k m → n sounds on a beat as m does on a k-th of it              (Node.Scaled.sound_eq)
    groups of scaled elements play the same                                  (playGroup_scaled)
-/

namespace Stave.Score

/-! ## Where the slots start -/

/-- How much of a time is over when the element at an index begins: by the lengths of the elements
before it, or by their number where no length counts. -/
def elapsed (total : ℚ) (lengths : List ℚ) (i : Nat) : ℚ :=
  if lengths.sum = 0 then total * i / lengths.length else total * (lengths.take i).sum / lengths.sum

theorem share_elapsed (total : ℚ) {ns : List Node} {i : Nat} (hi : i ≤ ns.length) :
    ((ns.take i).map (share total ns).slot).sum = elapsed total (elementBeats ns) i := by
  unfold share elapsed
  split
  · rw [List.map_const', List.sum_replicate, nsmul_eq_mul, List.length_take, Nat.min_eq_left hi,
      elementBeats_eq_map, List.length_map, mul_div_assoc', mul_comm]
  · rw [List.sum_map_mul_right, elementBeats_eq_map, List.map_take, mul_div_assoc', mul_comm]

/-- The elements of a group as they are played on a beat, from some moment, when a time is divided
by some lengths: the last slot ends when the time does. -/
structure Slots.Fill (t : Slots) (c : Setting) (beat start : Ratio) (total : ℚ) (lengths : List ℚ)
    (ns : List Node) : Prop where
  each : List.Forall₂ (fun n s => playNode c s.start beat n = .ok s.passage) ns t.played
  begins : ∀ i s, t.played[i]? = some s → s.start.toRat = start.toRat + elapsed total lengths i
  ends : t.stop.toRat = start.toRat + total

section

variable {c : Setting} {d : Division} {g : Share} {ns : List Node} {start beat factor : Ratio}

theorem traceSlots_each {t : Slots} (h : traceSlots c d start ns = .ok t) :
    List.Forall₂ (fun n s => playNode c s.start d.beat n = .ok s.passage) ns t.played := by
  induction ns generalizing start t with
  | nil =>
    rw [← Except.ok.inj h]
    exact .nil
  | cons n ns ih =>
    obtain ⟨slot, -, p, hp, next, -, rest, hrest, rfl⟩ := traceSlots_cons_eq_ok.1 h
    exact .cons hp (ih hrest)

/-- The cursor is moved by the slots before it, and by nothing else. -/
theorem traceSlots_start (hd : d.Exact g) {t : Slots} (h : traceSlots c d start ns = .ok t) :
    (∀ i s, t.played[i]? = some s → s.start.toRat = start.toRat + ((ns.take i).map g.slot).sum) ∧
    t.stop.toRat = start.toRat + (ns.map g.slot).sum := by
  induction ns generalizing start t with
  | nil =>
    rw [← Except.ok.inj h]
    refine ⟨fun i s hs => ?_, (add_zero _).symm⟩
    cases hs
  | cons n ns ih =>
    obtain ⟨slot, hslot, p, -, next, hnext, rest, hrest, rfl⟩ := traceSlots_cons_eq_ok.1 h
    obtain ⟨hstart, hstop⟩ := ih hrest
    rw [Ratio.add?_eq_some_iff.1 hnext, hd.slot hslot] at hstart hstop
    refine ⟨fun i s hs => ?_, by rw [hstop, List.map_cons, List.sum_cons, add_assoc]⟩
    cases i with
    | zero =>
      cases hs
      exact (add_zero _).symm
    | succ i => rw [hstart i s hs, List.take_succ_cons, List.map_cons, List.sum_cons, add_assoc]

/-- A group that is played fills its time. -/
theorem playGroup_fills (hne : ns ≠ []) {span : Span} {p : Passage}
    (h : playNode c start beat (.group ns factor span) = .ok p) :
    p.time.toRat = factor.toRat * beat.toRat ∧
      ∃ lengths weight d t, lengths? ns = some lengths ∧ weight? ns = some weight ∧
        divide? p.time weight ns.length = some d ∧ traceSlots c d start ns = .ok t ∧
        p.events = t.events ∧ t.Fill c d.beat start p.time.toRat (lengths.map Ratio.toRat) ns := by
  obtain ⟨n, ns, rfl⟩ := List.exists_cons_of_ne_nil hne
  obtain ⟨total, weight, d, t, htotal, hweight, hd, ht, rfl⟩ := playGroup_eq_ok h
  obtain ⟨lengths, hlengths, -⟩ := Option.bind_eq_some_iff.1 hweight
  have hexact := divide?_exact hweight hd
  have heach := traceSlots_each ht
  obtain ⟨hstart, hstop⟩ := traceSlots_start hexact ht
  refine ⟨Ratio.mul?_eq_some_iff.1 htotal, lengths, weight, d, t, hlengths, hweight, hd, ht, rfl,
    heach, ?_, ?_⟩
  · intro i s hs
    have hi : i < t.played.length := (List.getElem?_eq_some_iff.1 hs).1
    rw [← heach.length_eq] at hi
    rw [hstart i s hs, share_elapsed _ hi.le, toRat_of_lengths? hlengths]
  · rw [hstop, share_sum (List.cons_ne_nil n ns)]

end

/-! ## Scaled elements -/

/-- The same node, but for its own duration or factor, which is multiplied by a ratio. -/
inductive Node.Scaled (k : Ratio) : Node → Node → Prop
  | note {n : Note} {q : Ratio} (h : n.duration.mul? k = some q) :
      Scaled k (.note n) (.note { n with duration := q })
  | rest {r : Rest} {q : Ratio} (h : r.duration.mul? k = some q) :
      Scaled k (.rest r) (.rest { r with duration := q })
  | group {elements : List Node} {factor q : Ratio} {span : Span} (h : factor.mul? k = some q) :
      Scaled k (.group elements factor span) (.group elements q span)
  | parallel {voices : List Sequence} {factor q : Ratio} {span : Span}
      (h : factor.mul? k = some q) :
      Scaled k (.parallel voices factor span) (.parallel voices q span)

/-- A stroke without the length that its note is written with: what can be heard of it. -/
def Stroke.sound (x : Stroke) : Stroke := { x with note := { x.note with duration := 0 } }

/-- An event is settled by what can be heard of its stroke. -/
theorem Plays.unique {c : Setting} {e e' : Event} {x y : Stroke} (h : Plays c e x)
    (h' : Plays c e' y) (hs : x.sound = y.sound) : e = e' := by
  obtain ⟨hnote, hx, hd⟩ := Stroke.mk.inj hs
  have hstart : e.start = e'.start := Ratio.toRat_injective ((h.start.trans hx).trans h'.start.symm)
  have hduration : e.duration = e'.duration :=
    Ratio.toRat_injective ((h.duration.trans hd).trans h'.duration.symm)
  rw [h.agree h' hnote, ← hstart, ← hduration]

theorem events_unique {c : Setting} {es es' : List Event} {xs ys : List Stroke}
    (h : List.Forall₂ (Plays c) es xs) (h' : List.Forall₂ (Plays c) es' ys)
    (hs : xs.map Stroke.sound = ys.map Stroke.sound) : es = es' := by
  induction h generalizing es' ys with
  | nil =>
    rw [List.map_nil, eq_comm, List.map_eq_nil_iff] at hs
    subst hs
    exact (List.forall₂_nil_right_iff.1 h').symm
  | cons hplay _ ih =>
    cases h' with
    | nil => cases hs
    | cons hplay' hplays' =>
      obtain ⟨hsound, hs⟩ := List.cons.inj hs
      rw [hplay.unique hplay' hsound, ih hplays' hs]

section

variable {k : Ratio} {n m : Node}

theorem Node.Scaled.beats_eq (h : n.Scaled k m) : m.beats = n.beats * k.toRat := by
  cases h with
  | note h => exact Ratio.mul?_eq_some_iff.1 h
  | rest h => exact Ratio.mul?_eq_some_iff.1 h
  | group h => exact Ratio.mul?_eq_some_iff.1 h
  | parallel h =>
    rw [Node.beats, Node.beats, Ratio.mul?_eq_some_iff.1 h]
    ring

/-- On a beat as much shorter as its length is longer, a scaled node sounds the same. -/
theorem Node.Scaled.sound_eq (h : n.Scaled k m) (hk : k.toRat ≠ 0) (start beat : ℚ) :
    (m.render start (beat / k.toRat)).strokes.map Stroke.sound =
      (n.render start beat).strokes.map Stroke.sound := by
  have hcancel : ∀ {a q : Ratio}, a.mul? k = some q →
      q.toRat * (beat / k.toRat) = a.toRat * beat := by
    intro a q hq
    rw [Ratio.mul?_eq_some_iff.1 hq, mul_assoc, mul_div_cancel₀ _ hk]
  cases h with
  | note h =>
    simp only [Node.render, hcancel h]
    rfl
  | rest h => rfl
  | group h => simp only [Node.render, hcancel h]
  | parallel h => simp only [Node.render, hcancel h]

end

/-! ## Nothing to scale -/

/-- A node that sounds the same on every beat. -/
def Node.Still (n : Node) : Prop := ∀ start beat beat' : ℚ, n.render start beat = n.render start beat'

theorem renderElements_still {ns : List Node} (h : ∀ n ∈ ns, n.Still) (cursor beat beat' : ℚ) :
    renderElements cursor beat ns = renderElements cursor beat' ns := by
  induction ns generalizing cursor with
  | nil => rfl
  | cons n ns ih =>
    obtain ⟨hn, hns⟩ := List.forall_mem_cons.1 h
    rw [renderElements, renderElements, hn cursor beat beat', ih hns]

theorem renderVoices_still {ss : List Sequence} (h : ∀ s ∈ ss, ∀ n ∈ s.elements, n.Still)
    (start beat beat' : ℚ) : renderVoices start beat ss = renderVoices start beat' ss := by
  induction ss with
  | nil => rfl
  | cons s ss ih =>
    obtain ⟨elements, span⟩ := s
    obtain ⟨hs, hss⟩ := List.forall_mem_cons.1 h
    rw [renderVoices, renderVoices, Sequence.render, Sequence.render,
      renderElements_still hs start beat beat', ih hss]

theorem beats_le_longest {ss : List Sequence} :
    ∀ s ∈ ss, s.beats ≤ (voiceBeats ss).foldl max 0 := by
  rw [List.foldl_eq_foldr]
  induction ss with
  | nil => exact fun s hs => absurd hs List.not_mem_nil
  | cons t ss ih =>
    rw [voiceBeats, List.foldr_cons]
    intro s hs
    rcases List.mem_cons.1 hs with rfl | hs
    · exact le_max_left _ _
    · exact (ih s hs).trans (le_max_right _ _)

/-- Voices none of which takes any time consist of elements that take none. -/
theorem beats_eq_zero_of_longest {ss : List Sequence} (h : ∀ s ∈ ss, ∀ n ∈ s.elements, n.Nonneg)
    (hz : (voiceBeats ss).foldl max 0 = 0) : ∀ s ∈ ss, ∀ n ∈ s.elements, n.beats = 0 := by
  rintro ⟨elements, span⟩ hs
  have hnonneg : ∀ n ∈ elements, 0 ≤ n.beats := fun n hn => (h _ hs n hn).beats_nonneg
  have hle : (elementBeats elements).sum ≤ 0 := (beats_le_longest _ hs).trans_eq hz
  exact beats_eq_zero_of_sum hnonneg (le_antisymm hle (elementBeats_sum_nonneg hnonneg))

/-- Where no duration is negative, a node that takes no time takes none at any depth. -/
theorem Node.Nonneg.still {n : Node} (h : n.Nonneg) (hz : n.beats = 0) : n.Still := by
  induction h with
  | @note n h =>
    have hduration : n.duration.toRat = 0 := hz
    intro start beat beat'
    rw [Node.render, Node.render, hduration, zero_mul, zero_mul]
  | @rest r h =>
    have hduration : r.duration.toRat = 0 := hz
    intro start beat beat'
    rw [Node.render, Node.render, hduration, zero_mul, zero_mul]
  | @group elements factor span each h ih =>
    have hfactor : factor.toRat = 0 := hz
    intro start beat beat'
    rw [Node.render, Node.render, hfactor, zero_mul, zero_mul]
  | parallel each h ih =>
    rw [Node.beats] at hz
    intro start beat beat'
    rw [Node.render, Node.render]
    rcases mul_eq_zero.1 hz with hfactor | hlongest
    · rw [hfactor, zero_mul, zero_mul]
    · have hzero := beats_eq_zero_of_longest each hlongest
      exact renderVoices_still (fun s hs n hn => ih s hs n hn (hzero s hs n hn)) start _ _
  | sequence each ih =>
    have hzero := beats_eq_zero_of_sum (fun n hn => (each n hn).beats_nonneg) hz
    intro start beat beat'
    rw [Node.render, Node.render, Sequence.render, Sequence.render]
    exact renderElements_still (fun n hn => ih n hn (hzero n hn)) start beat beat'

/-- The voices of a block hold nothing negative. -/
def Node.Quiet (n : Node) : Prop :=
  ∀ voices factor span, n = .parallel voices factor span →
    ∀ s ∈ voices, ∀ m ∈ s.elements, m.Nonneg

/-- A node that takes no time sounds the same when it is scaled. -/
theorem Node.Scaled.sound_eq_of_still {k : Ratio} {n m : Node} (h : n.Scaled k m)
    (hz : n.beats = 0) (hquiet : n.Quiet) (start beat : ℚ) :
    (m.render start beat).strokes.map Stroke.sound =
      (n.render start beat).strokes.map Stroke.sound := by
  have hzero : ∀ {a q : Ratio}, a.mul? k = some q → a.toRat = 0 → q.toRat = a.toRat := by
    intro a q hq ha
    rw [Ratio.mul?_eq_some_iff.1 hq, ha, zero_mul]
  cases h with
  | note h =>
    simp only [Node.render, hzero h hz]
    rfl
  | rest h => rfl
  | group h => simp only [Node.render, hzero h hz]
  | parallel h =>
    rw [Node.beats] at hz
    rw [Node.render, Node.render]
    rcases mul_eq_zero.1 hz with hfactor | hlongest
    · rw [hzero h hfactor]
    · have hnonneg := hquiet _ _ _ rfl
      have hbeats := beats_eq_zero_of_longest hnonneg hlongest
      rw [renderVoices_still (fun s hs n hn => (hnonneg s hs n hn).still (hbeats s hs n hn)) start]

/-! ## Groups of scaled elements -/

theorem renderSlots_sound {g g' : Share} {ns ms : List Node}
    (h : List.Forall₂ (fun n m => g'.slot m = g.slot n ∧ ∀ start : ℚ,
      (m.render start g'.beat).strokes.map Stroke.sound =
        (n.render start g.beat).strokes.map Stroke.sound) ns ms) (cursor : ℚ) :
    (renderSlots g' cursor ms).map Stroke.sound = (renderSlots g cursor ns).map Stroke.sound := by
  induction h generalizing cursor with
  | nil => rfl
  | cons hn _ ih =>
    obtain ⟨hslot, hsound⟩ := hn
    rw [renderSlots, renderSlots, List.map_append, List.map_append, hsound cursor, hslot, ih]

section

variable {k : Ratio} {ns ms : List Node}

theorem elementBeats_scaled (h : List.Forall₂ (Node.Scaled k) ns ms) :
    (elementBeats ms).sum = (elementBeats ns).sum * k.toRat := by
  induction h with
  | nil => exact (zero_mul _).symm
  | cons hn _ ih =>
    rw [elementBeats, elementBeats, List.sum_cons, List.sum_cons, ih, hn.beats_eq, add_mul]

/-- Scaling every element of a group changes nothing that can be heard. -/
theorem share_scaled (hk : 0 < k) (h : List.Forall₂ (Node.Scaled k) ns ms)
    (hnonneg : ∀ n ∈ ns, 0 ≤ n.beats)
    (hquiet : (elementBeats ns).sum = 0 → ∀ n ∈ ns, n.Quiet) (total start : ℚ) :
    (renderSlots (share total ms) start ms).map Stroke.sound =
      (renderSlots (share total ns) start ns).map Stroke.sound := by
  have hk' : k.toRat ≠ 0 := (Ratio.toRat_pos.2 hk).ne'
  have hsum := elementBeats_scaled h
  refine renderSlots_sound ?_ start
  unfold share
  rw [hsum, ← h.length_eq]
  by_cases hz : (elementBeats ns).sum = 0
  · -- an even division, in which no element takes any time
    rw [if_pos hz, if_pos (by rw [hz, zero_mul])]
    have hzero := beats_eq_zero_of_sum hnonneg hz
    have hstill : ∀ n ∈ ns, n.beats = 0 ∧ n.Quiet := fun n hn => ⟨hzero n hn, hquiet hz n hn⟩
    refine ((List.forall₂_and_left ns ms).2 ⟨hstill, h⟩).imp
      fun n m ⟨⟨hbeats, hn⟩, hscaled⟩ => ?_
    exact ⟨rfl, fun start => hscaled.sound_eq_of_still hbeats hn start _⟩
  · rw [if_neg hz, if_neg (mul_ne_zero hz hk')]
    refine h.imp fun n m hscaled => ⟨?_, fun start => ?_⟩
    · show m.beats * (total / _) = n.beats * (total / _)
      rw [hscaled.beats_eq]
      field_simp
    · show (m.render start (total / _)).strokes.map _ = _
      rw [← div_div, hscaled.sound_eq hk']

end

/-- Two groups whose elements differ by a common factor play the same. -/
theorem playGroup_scaled {c : Setting} {k start beat factor : Ratio} {ns ms : List Node}
    {span span' : Span} {p q : Passage} (hk : 0 < k) (h : List.Forall₂ (Node.Scaled k) ns ms)
    (hnonneg : ∀ n ∈ ns, 0 ≤ n.beats) (hquiet : (elementBeats ns).sum = 0 → ∀ n ∈ ns, n.Quiet)
    (hp : playNode c start beat (.group ns factor span) = .ok p)
    (hq : playNode c start beat (.group ms factor span') = .ok q) : p = q := by
  obtain ⟨hevents, htime⟩ := playNode_exact hp
  obtain ⟨hevents', htime'⟩ := playNode_exact hq
  have hsound := share_scaled hk h hnonneg hquiet (factor.toRat * beat.toRat) start.toRat
  obtain ⟨events, time⟩ := p
  obtain ⟨events', time'⟩ := q
  obtain rfl : events = events' := events_unique hevents hevents' hsound.symm
  obtain rfl : time = time' := Ratio.toRat_injective (htime.trans htime'.symm)
  rfl

/-! ## Up to spans -/

theorem Node.Nonneg.bare {n : Node} (h : n.Nonneg) : n.bare.Nonneg := by
  have hmap : ∀ {ns : List Node}, (∀ n ∈ ns, n.bare.Nonneg) → ∀ n ∈ bareElements ns, n.Nonneg := by
    intro ns hns n hn
    rw [bareElements_eq_map] at hn
    obtain ⟨m, hm, rfl⟩ := List.mem_map.1 hn
    exact hns m hm
  induction h with
  | note h => exact .note h
  | rest h => exact .rest h
  | group _ h ih => exact .group (hmap ih) h
  | parallel _ h ih =>
    refine .parallel (fun s hs => ?_) h
    rw [bareVoices_eq_map] at hs
    obtain ⟨⟨elements, span⟩, ht, rfl⟩ := List.mem_map.1 hs
    exact hmap (ih _ ht)
  | sequence _ ih => exact .sequence (hmap ih)

theorem Node.Quiet.bare {n : Node} (h : n.Quiet) : n.bare.Quiet := by
  intro voices factor span hn s hs m hm
  cases n with
  | parallel voices' factor' span' =>
    cases hn
    rw [bareVoices_eq_map] at hs
    obtain ⟨⟨elements, span⟩, ht, rfl⟩ := List.mem_map.1 hs
    rw [Sequence.bare, bareElements_eq_map] at hm
    obtain ⟨m', hm', rfl⟩ := List.mem_map.1 hm
    exact (h _ _ _ rfl _ ht m' hm').bare
  | _ => cases hn

theorem exists_length {ns : List Node} {lengths : List Ratio} (h : lengths? ns = some lengths) :
    ∀ n ∈ ns, ∃ w ∈ lengths, n.length? = some w := by
  induction ns generalizing lengths with
  | nil => exact fun n hn => absurd hn List.not_mem_nil
  | cons n ns ih =>
    rw [lengths?] at h
    obtain ⟨w, hw, h⟩ := Option.bind_eq_some_iff.1 h
    obtain ⟨rest, hrest, h⟩ := Option.bind_eq_some_iff.1 h
    rw [← Option.some.inj h]
    refine List.forall_mem_cons.2 ⟨⟨w, List.mem_cons_self, hw⟩, fun m hm => ?_⟩
    obtain ⟨w', hw', hm⟩ := ih hrest m hm
    exact ⟨w', List.mem_cons_of_mem w hw', hm⟩

theorem playGroup_bare {c : Setting} {start beat factor : Ratio} {ns : List Node} {span : Span}
    {p : Passage} (h : playNode c start beat (.group ns factor span) = .ok p) :
    playNode c start beat (.group (bareElements ns) factor default) = .ok p := by
  have hbare := playNode_bare c start beat (.group ns factor span)
  rw [h] at hbare
  exact hbare

/-! ## Groups -/

/-- A group with elements takes its factor of the beat and fills it: its elements are played in
turn, each from where the lengths before it say, and the last slot ends where the group does.  So,
if no element has a negative length, multiplying every length by one ratio above zero changes
neither the events nor the time; where the lengths add up to nothing, the blocks among the elements
have to be without negative durations themselves. -/
theorem group_divides_time {c : Setting} {start beat factor : Ratio} {ns : List Node} (hne : ns ≠ [])
    (span : Span) :
    (∀ p, playNode c start beat (.group ns factor span) = .ok p →
      p.time.toRat = factor.toRat * beat.toRat ∧
      ∃ lengths weight d t, lengths? ns = some lengths ∧ weight? ns = some weight ∧
        divide? p.time weight ns.length = some d ∧ traceSlots c d start ns = .ok t ∧
        p.events = t.events ∧
        t.Fill c d.beat start p.time.toRat (lengths.map Ratio.toRat) ns) ∧
    ∀ (k : Ratio) (ms : List Node) (span' : Span), 0 < k →
      List.Forall₂ (fun n m => n.bare.Scaled k m.bare) ns ms →
      (∀ n ∈ ns, ∀ w, n.length? = some w → 0 ≤ w) →
      (weight? ns = some 0 → ∀ n ∈ ns, n.Quiet) →
      (∀ p q, playNode c start beat (.group ns factor span) = .ok p →
        playNode c start beat (.group ms factor span') = .ok q → p = q) ∧
      ∀ p q, decodeNode c start (.group ns factor span) = .ok p →
        decodeNode c start (.group ms factor span') = .ok q → p = q := by
  refine ⟨fun p hp => playGroup_fills hne hp, fun k ms span' hk hscaled hlengths hquiet => ?_⟩
  have hplay : ∀ {beat : Ratio} {p q : Passage}, playNode c start beat (.group ns factor span) = .ok p →
      playNode c start beat (.group ms factor span') = .ok q → p = q := by
    intro beat p q hp hq
    obtain ⟨-, lengths, weight, d, t, hns, hweight, -⟩ := playGroup_fills hne hp
    have hbare : List.Forall₂ (Node.Scaled k) (bareElements ns) (bareElements ms) := by
      rw [bareElements_eq_map, bareElements_eq_map, List.forall₂_map_left_iff,
        List.forall₂_map_right_iff]
      exact hscaled
    refine playGroup_scaled hk hbare ?_ ?_ (playGroup_bare hp) (playGroup_bare hq)
    · intro n hn
      rw [bareElements_eq_map] at hn
      obtain ⟨m, hm, rfl⟩ := List.mem_map.1 hn
      obtain ⟨w, -, hw⟩ := exists_length hns m hm
      rw [← Node.toRat_of_length? (m.length?_bare.trans hw), Ratio.toRat_nonneg]
      exact hlengths m hm w hw
    · intro hsum n hn
      rw [bareElements_eq_map] at hn
      obtain ⟨m, hm, rfl⟩ := List.mem_map.1 hn
      have hzero : weight.toRat = (0 : Ratio).toRat := by
        rw [toRat_of_weight? ((weight?_bare ns).trans hweight), hsum, Ratio.toRat_zero]
      exact (hquiet (Ratio.toRat_injective hzero ▸ hweight) m hm).bare
  refine ⟨fun p q => hplay, fun p q hp hq => ?_⟩
  obtain ⟨p', hp', rfl⟩ := bind_pure_eq_ok hp
  obtain ⟨q', hq', rfl⟩ := bind_pure_eq_ok hq
  rw [hplay hp' hq']

def two : Ratio := .ofInt 2 (by decide)

/-- A note, a group and a block of voices, each of the same length. -/
def mixedElements (q : Ratio) : List Node :=
  [.note ⟨.degree 0, q, 0, [], default⟩,
    .group [.note ⟨.degree 1, 1, 0, [], default⟩, .rest ⟨1, default⟩] q default,
    .parallel [⟨[.note ⟨.degree 2, 1, 0, [], default⟩], default⟩] q default]

/-- Thirds of a beat, whether the lengths are ones or twos. -/
theorem group_divides_time_mixed : ∃ p t d,
    playNode plainSetting 0 1 (.group (mixedElements 1) 1 default) = .ok p ∧
    playNode plainSetting 0 1 (.group (mixedElements two) 1 default) = .ok p ∧
    p.events.length = 3 ∧ p.time = 1 ∧
    traceSlots plainSetting d 0 (mixedElements 1) = .ok t ∧ p.events = t.events ∧
    t.Fill plainSetting d.beat 0 1 [1, 1, 1] (mixedElements 1) := by
  have hlengths : lengths? (mixedElements 1) = some [1, 1, 1] := by decide +kernel
  have hplays : (playNode plainSetting 0 1 (.group (mixedElements 1) 1 default)).toOption.bind
      (fun p => (playNode plainSetting 0 1 (.group (mixedElements two) 1 default)).toOption.map
        fun _ => (p.events.length, p.time)) = some (3, 1) := by
    decide +kernel
  obtain ⟨p, hp, hplays⟩ := Option.bind_eq_some_iff.1 hplays
  obtain ⟨q, hq, hplays⟩ := Option.map_eq_some_iff.1 hplays
  obtain ⟨hevents, htime⟩ := Prod.mk.inj hplays
  rw [toOption_eq_some] at hp hq
  obtain ⟨hfills, hscales⟩ :=
    @group_divides_time plainSetting 0 1 1 (mixedElements 1) (List.cons_ne_nil _ _) default
  obtain ⟨-, lengths, weight, d, t, hns, -, -, ht, htrace, hfill⟩ := hfills p hp
  obtain rfl : [1, 1, 1] = lengths := Option.some.inj (hlengths.symm.trans hns)
  have hfill' : t.Fill plainSetting d.beat 0 1 [1, 1, 1] (mixedElements 1) := by
    rwa [htime] at hfill
  have htwo : Ratio.mul? 1 two = some two := Ratio.one_mul? two
  have hscaled : List.Forall₂ (fun n m => n.bare.Scaled two m.bare) (mixedElements 1)
      (mixedElements two) :=
    .cons (.note htwo) (.cons (.group htwo) (.cons (.parallel htwo) .nil))
  have hnonneg : ∀ n ∈ mixedElements 1, ∀ w, n.length? = some w → 0 ≤ w := by
    intro n hn w hw
    obtain ⟨w', hw', hlength⟩ := exists_length hlengths n hn
    obtain rfl := Option.some.inj (hw.symm.trans hlength)
    have hone : ∀ q ∈ [(1 : Ratio), 1, 1], 0 ≤ q := by decide
    exact hone w hw'
  have hweight : weight? (mixedElements 1) ≠ some 0 := by decide +kernel
  obtain ⟨hsame, -⟩ := hscales two (mixedElements two) default (by decide) hscaled hnonneg
    fun h => absurd h hweight
  exact ⟨p, t, d, hp, by rw [hsame p q hp hq, hq], hevents, htime, ht, htrace, hfill'⟩

/-- A voice that rests back what it plays, in a block of some factor. -/
def takenBack (factor : Ratio) : Node :=
  .parallel [⟨[.note ⟨.degree 0, 1, 0, [], default⟩, .rest ⟨.ofInt (-1) (by decide), default⟩],
    default⟩] factor default

/-- A block that takes no time, but only since it takes some back, is heard to be scaled. -/
theorem scaling_heard_of_negative :
    (takenBack 1).Scaled two (takenBack two) ∧ (takenBack 1).length? = some 0 ∧ ∃ p q,
      playNode plainSetting 0 1 (.group [takenBack 1] 1 default) = .ok p ∧
      playNode plainSetting 0 1 (.group [takenBack two] 1 default) = .ok q ∧
      p.events.map Event.duration = [1] ∧ q.events.map Event.duration = [two] := by
  refine ⟨.parallel (by decide +kernel), by decide +kernel, ?_⟩
  have hplays : (playNode plainSetting 0 1 (.group [takenBack 1] 1 default)).toOption.bind
      (fun p => (playNode plainSetting 0 1 (.group [takenBack two] 1 default)).toOption.map
        fun q => (p.events.map Event.duration, q.events.map Event.duration)) = some ([1], [two]) := by
    decide +kernel
  obtain ⟨p, hp, hplays⟩ := Option.bind_eq_some_iff.1 hplays
  obtain ⟨q, hq, hplays⟩ := Option.map_eq_some_iff.1 hplays
  obtain ⟨hdurations, hdurations'⟩ := Prod.mk.inj hplays
  rw [toOption_eq_some] at hp hq
  exact ⟨p, q, hp, hq, hdurations, hdurations'⟩

end Stave.Score
