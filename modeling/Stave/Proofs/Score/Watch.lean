import Mathlib.Data.List.Fold
import Stave.Proofs.Score.Forward

/-!
# Lengths predict times

The length of a node is found without decoding it, the time it takes by decoding it.  Where no
duration is negative the two agree: a node takes its length on whatever beat it is given.  A decoder
that checks this after every call, and checks that every element of a group fills its slot, never
finds it false.

    n.Nonneg → 0 ≤ beat → (n.render start beat).time = n.beats * beat         (Node.Nonneg.render_time)
    n.Nonneg → 0 ≤ beat →
      watchNode c start beat n = (playNode c start beat n).mapError .fault    (watchNode_eq)
-/

namespace Stave.Score

/-! ## A decoder that watches itself -/

/-- A fault of the score, or a mistake of the decoder: a call did not take its length on its beat,
or an element of a group did not fill its slot. -/
inductive Alarm where
  | fault (e : DecodeFault)
  | length
  | slot

/-- The passage, if it takes a length on a beat; a length that cannot be held says nothing. -/
def Passage.timed (p : Passage) (length? : Option Ratio) (beat : Ratio) : Except Alarm Passage :=
  match length? with
  | none => .ok p
  | some q => if q.mul? beat = some p.time then .ok p else .error .length

def watchTime (span : Span) (t : Option Ratio) : Except Alarm Ratio := (inTime span t).mapError .fault

mutual

def watchNode (c : Setting) (start beat : Ratio) : Node → Except Alarm Passage
  | .sequence s => watchSequence c start beat s
  | .group elements factor span => do
    let total ← watchTime span (factor.mul? beat)
    let weight ← watchTime span (weight? elements)
    match elements with
    | [] => Passage.timed ⟨[], total⟩ (some factor) beat
    | _ :: _ =>
      match divide? total weight elements.length with
      | some division => do
        Passage.timed ⟨← watchSlots c division start elements, total⟩ (some factor) beat
      | none => .error (.fault (.time span))
  | .parallel voices factor span => do
    let voiceBeat ← watchTime span (factor.mul? beat)
    let p ← watchVoices c start voiceBeat 0 voices
    p.timed (Node.parallel voices factor span).length? beat
  | .note n => do
    let duration ← watchTime n.span (n.duration.mul? beat)
    let _ ← watchTime n.span (start.add? duration)
    let e ← (eventOf c n start duration).mapError .fault
    Passage.timed ⟨[e], duration⟩ (some n.duration) beat
  | .rest r => do
    Passage.timed ⟨[], ← watchTime r.span (r.duration.mul? beat)⟩ (some r.duration) beat

def watchSequence (c : Setting) (start beat : Ratio) : Sequence → Except Alarm Passage
  | ⟨elements, span⟩ => do
    let p ← watchElements c start beat elements
    Passage.timed ⟨p.events, ← watchTime span (p.time.sub? start)⟩ (Sequence.mk elements span).length? beat

def watchElements (c : Setting) (cursor beat : Ratio) : List Node → Except Alarm Passage
  | [] => return ⟨[], cursor⟩
  | n :: ns => do
    let p ← watchNode c cursor beat n
    let next ← watchTime n.span (cursor.add? p.time)
    let rest ← watchElements c next beat ns
    return ⟨p.events ++ rest.events, rest.time⟩

def watchSlots (c : Setting) (d : Division) (cursor : Ratio) : List Node → Except Alarm (List Event)
  | [] => return []
  | n :: ns => do
    let slot ← (d.slot n).mapError .fault
    let p ← watchNode c cursor d.beat n
    if d.even ∨ p.time = slot then
      let next ← watchTime n.span (cursor.add? slot)
      return p.events ++ (← watchSlots c d next ns)
    else .error .slot

def watchVoices (c : Setting) (start beat longest : Ratio) : List Sequence → Except Alarm Passage
  | [] => return ⟨[], longest⟩
  | s :: ss => do
    let p ← watchSequence c start beat s
    let rest ← watchVoices c start beat (max longest p.time) ss
    return ⟨p.events ++ rest.events, rest.time⟩

end

/-! ## Exact times -/

section

variable {ns : List Node} {beat : ℚ}

theorem renderElements_time (h : ∀ n ∈ ns, ∀ start, (n.render start beat).time = n.beats * beat)
    (cursor : ℚ) : (renderElements cursor beat ns).time = (elementBeats ns).sum * beat := by
  induction ns generalizing cursor with
  | nil => exact (zero_mul beat).symm
  | cons n ns ih =>
    have hn := h n List.mem_cons_self cursor
    have hns := ih (fun m hm => h m (List.mem_cons_of_mem n hm)) (cursor + (n.render cursor beat).time)
    rw [renderElements, elementBeats, List.sum_cons, add_mul, ← hn, ← hns]

/-- Stretching the beat of the voices stretches the longest of them, as no beat is negative. -/
theorem renderVoices_time {ss : List Sequence} (hb : 0 ≤ beat)
    (h : ∀ s ∈ ss, ∀ start, (s.render start beat).time = s.beats * beat) (start : ℚ) :
    (renderVoices start beat ss).time = (voiceBeats ss).foldr max 0 * beat := by
  induction ss with
  | nil => exact (zero_mul beat).symm
  | cons s ss ih =>
    have hs := h s List.mem_cons_self start
    have hss := ih fun t ht => h t (List.mem_cons_of_mem s ht)
    rw [renderVoices, voiceBeats, List.foldr_cons, max_mul_of_nonneg _ _ hb, ← hs, ← hss]

end

/-- A node takes its length on whatever beat it is given. -/
theorem Node.Nonneg.render_time {n : Node} (h : n.Nonneg) {beat : ℚ} (hb : 0 ≤ beat) (start : ℚ) :
    (n.render start beat).time = n.beats * beat := by
  induction h generalizing start beat with
  | note h => rfl
  | rest h => rfl
  | group each h ih => rw [Node.render, Node.beats]
  | @parallel voices factor span each h ih =>
    have hvoice : 0 ≤ factor.toRat * beat := mul_nonneg (Ratio.toRat_nonneg.2 h) hb
    rw [Node.render, Node.beats, renderVoices_time hvoice, List.foldl_eq_foldr]
    · ring
    · rintro ⟨elements, span⟩ hs start
      exact renderElements_time (fun n hn start => ih _ hs n hn hvoice start) start
  | sequence each ih => exact renderElements_time (fun n hn start => ih n hn hb start) start

section

variable {c : Setting} {start beat q : Ratio} {p : Passage}

theorem Node.Nonneg.time_eq {n : Node} (h : n.Nonneg) (hb : 0 ≤ beat)
    (hp : playNode c start beat n = .ok p) (hq : n.length? = some q) :
    p.time.toRat = q.toRat * beat.toRat := by
  rw [(playNode_exact hp).time, h.render_time (Ratio.toRat_nonneg.2 hb), Node.toRat_of_length? hq]

/-! ## No alarm is raised -/

/-- The check after a call passes. -/
theorem timed_of_nonneg {n : Node} (h : n.Nonneg) (hb : 0 ≤ beat) :
    (do ((← (playNode c start beat n).mapError Alarm.fault).timed n.length? beat)) =
      (playNode c start beat n).mapError Alarm.fault := by
  cases hp : playNode c start beat n with
  | error e => rfl
  | ok p =>
    show p.timed n.length? beat = .ok p
    cases hq : n.length? with
    | none => rfl
    | some q => exact if_pos (Ratio.mul?_eq_some_iff.2 (h.time_eq hb hp hq))

/-- An element of a group that is not divided evenly fills its slot. -/
theorem slot_eq_time {n : Node} (h : n.Nonneg) {d : Division} (hb : 0 ≤ d.beat) {slot : Ratio}
    (hslot : d.slot n = .ok slot) (hp : playNode c start d.beat n = .ok p) :
    d.even ∨ p.time = slot := by
  by_cases heven : d.even = true
  · exact .inl heven
  · right
    unfold Division.slot at hslot
    rw [if_neg heven] at hslot
    obtain ⟨q, hq, hslot⟩ := bind_eq_ok hslot
    have htime := h.time_eq hb hp (inTime_eq_ok hq)
    rw [← Ratio.mul?_eq_some_iff.1 (inTime_eq_ok hslot)] at htime
    exact Ratio.toRat_injective htime

end

/-! ## Watching changes nothing -/

theorem divide?_beat_nonneg {total weight : Ratio} {ns : List Node} {d : Division}
    (h : ∀ n ∈ ns, n.Nonneg) (ht : 0 ≤ total) (hw : weight? ns = some weight)
    (hd : divide? total weight ns.length = some d) : 0 ≤ d.beat := by
  rw [← Ratio.toRat_nonneg, (divide?_exact hw hd).beat]
  exact (share_nonneg (Ratio.toRat_nonneg.2 ht) h).beat

section

variable {c : Setting}

mutual

theorem watchNode_eq {start beat : Ratio} (hb : 0 ≤ beat) : ∀ {n : Node}, n.Nonneg →
    watchNode c start beat n = (playNode c start beat n).mapError Alarm.fault
  | .sequence s, h => by
    have each : ∀ n ∈ s.elements, n.Nonneg := by
      cases h with
      | sequence each => exact each
    rw [watchNode, playNode]
    exact watchSequence_eq hb each
  | .group [] factor span, h => by
    rw [← timed_of_nonneg h hb]
    simp only [watchNode, playNode, watchTime, mapError_bind, bind_assoc, mapError_pure, pure_bind]
    rfl
  | .group (n :: ns) factor span, .group each h => by
    rw [← timed_of_nonneg (.group each h) hb]
    simp only [watchNode, playNode, watchTime, mapError_bind, bind_assoc]
    cases ht : inTime span (factor.mul? beat) with
    | error e => rfl
    | ok total =>
      cases hw : inTime span (weight? (n :: ns)) with
      | error e => rfl
      | ok weight =>
        have htotal := Ratio.mul?_nonneg h hb (inTime_eq_ok ht)
        simp only [bind, Except.bind, Except.mapError]
        cases hd : divide? total weight (n :: ns).length with
        | none => rfl
        | some d =>
          have hbeat := divide?_beat_nonneg each htotal (inTime_eq_ok hw) hd
          simp only
          rw [watchSlots_eq hbeat each]
          cases playSlots c d start (n :: ns) <;> rfl
  | .parallel voices factor span, .parallel each h => by
    rw [← timed_of_nonneg (.parallel each h) hb]
    simp only [watchNode, playNode, watchTime, mapError_bind, bind_assoc]
    cases ht : inTime span (factor.mul? beat) with
    | error e => rfl
    | ok voiceBeat =>
      have hvoice := Ratio.mul?_nonneg h hb (inTime_eq_ok ht)
      show (watchVoices c start voiceBeat 0 voices >>= _) = _
      rw [watchVoices_eq hvoice each]
      rfl
  | .note n, h => by
    rw [← timed_of_nonneg h hb]
    simp only [watchNode, playNode, watchTime, mapError_bind, bind_assoc, mapError_pure, pure_bind]
    rfl
  | .rest r, h => by
    rw [← timed_of_nonneg h hb]
    simp only [watchNode, playNode, watchTime, mapError_bind, bind_assoc, mapError_pure, pure_bind]
    rfl

theorem watchSequence_eq {start beat : Ratio} (hb : 0 ≤ beat) : ∀ {s : Sequence},
    (∀ n ∈ s.elements, n.Nonneg) →
      watchSequence c start beat s = (playSequence c start beat s).mapError Alarm.fault
  | ⟨elements, span⟩, h => by
    have hnonneg : (Node.sequence ⟨elements, span⟩).Nonneg := .sequence h
    have htimed := @timed_of_nonneg c start beat _ hnonneg hb
    simp only [playNode] at htimed
    rw [← htimed]
    simp only [watchSequence, playSequence, watchTime, mapError_bind, bind_assoc, mapError_pure, pure_bind]
    rw [watchElements_eq hb h]
    rfl

theorem watchElements_eq {cursor beat : Ratio} (hb : 0 ≤ beat) : ∀ {ns : List Node},
    (∀ n ∈ ns, n.Nonneg) →
      watchElements c cursor beat ns = (playElements c cursor beat ns).mapError Alarm.fault
  | [], _ => rfl
  | n :: ns, h => by
    obtain ⟨hn, hns⟩ := List.forall_mem_cons.1 h
    simp only [watchElements, playElements, watchTime, mapError_bind, mapError_pure,
      watchNode_eq hb hn]
    simp only [watchElements_eq hb hns]

theorem watchSlots_eq {d : Division} (hb : 0 ≤ d.beat) {cursor : Ratio} : ∀ {ns : List Node},
    (∀ n ∈ ns, n.Nonneg) →
      watchSlots c d cursor ns = (playSlots c d cursor ns).mapError Alarm.fault
  | [], _ => rfl
  | n :: ns, h => by
    obtain ⟨hn, hns⟩ := List.forall_mem_cons.1 h
    simp only [watchSlots, playSlots, watchTime, mapError_bind, mapError_pure, watchNode_eq hb hn]
    simp only [watchSlots_eq hb hns]
    cases hslot : d.slot n with
    | error e => rfl
    | ok slot =>
      cases hp : playNode c cursor d.beat n with
      | error e => rfl
      | ok p => exact if_pos (slot_eq_time hn hb hslot hp)

theorem watchVoices_eq {start beat longest : Ratio} (hb : 0 ≤ beat) : ∀ {ss : List Sequence},
    (∀ s ∈ ss, ∀ n ∈ s.elements, n.Nonneg) →
      watchVoices c start beat longest ss = (playVoices c start beat longest ss).mapError Alarm.fault
  | [], _ => rfl
  | s :: ss, h => by
    obtain ⟨hs, hss⟩ := List.forall_mem_cons.1 h
    simp only [watchVoices, playVoices, mapError_bind, mapError_pure, watchSequence_eq hb hs]
    simp only [watchVoices_eq hb hss]

end

end

/-! ## Whole scores -/

/-- Whatever a decoded node takes is its length on the default beat, and so at every call below it:
a decoder that checks every call, and every slot of a group, raises no alarm, whether it ends well
or in a fault.  Every node that a source spells is such a node. -/
theorem length_predicts_time {c : Setting} (hb : 0 ≤ c.defaults.beat) (start : Ratio) :
    (∀ source s, read source = .ok s → ∀ n ∈ s.elements, n.Nonneg) ∧
    (∀ n : Node, n.Nonneg →
      (∀ p q, decodeNode c start n = .ok p → n.length? = some q →
        p.time.toRat = q.toRat * c.defaults.beat.toRat) ∧
      watchNode c start c.defaults.beat n =
        (playNode c start c.defaults.beat n).mapError Alarm.fault) ∧
    ∀ s : Sequence, (∀ n ∈ s.elements, n.Nonneg) →
      watchSequence c start c.defaults.beat s =
        (playSequence c start c.defaults.beat s).mapError Alarm.fault := by
  refine ⟨?_, ?_, fun s hs => watchSequence_eq hb hs⟩
  · intro source s hread n hn
    exact (spelt_of_read hread n hn).nonneg
  · intro n hn
    refine ⟨?_, watchNode_eq hb hn⟩
    intro p q hp hq
    obtain ⟨p, hplay, rfl⟩ := bind_pure_eq_ok hp
    have htime := hn.time_eq hb hplay hq
    exact htime

/-- A group with a block of voices and a group that is divided evenly. -/
theorem length_predicts_time_nested : ∃ n span p,
    read "([4 5, 6!]/2 (0@0 1@0)@3)@5".toList = .ok ⟨[n], span⟩ ∧
    decodeNode plainSetting 0 n = .ok p ∧ p.events.length = 5 ∧ p.time.toRat = 5 ∧
    watchNode plainSetting 0 1 n = (playNode plainSetting 0 1 n).mapError Alarm.fault := by
  have hplays : ((read "([4 5, 6!]/2 (0@0 1@0)@3)@5".toList).toOption.bind fun s =>
      s.elements.head?.bind fun n => (playNode plainSetting 0 1 n).toOption.map fun p =>
        (s.elements.length, p.events.length, n.length?.map fun q => (q.num, q.den))) =
        some (1, 5, some (5, 1)) := by
    decide +kernel
  obtain ⟨⟨elements, span⟩, hread, hplays⟩ := Option.bind_eq_some_iff.1 hplays
  obtain ⟨n, hn, hplays⟩ := Option.bind_eq_some_iff.1 hplays
  obtain ⟨p, hp, hplays⟩ := Option.map_eq_some_iff.1 hplays
  simp only [Prod.mk.injEq, Option.map_eq_some_iff] at hplays
  obtain ⟨hone, hfive, q, hq, hnum, hden⟩ := hplays
  obtain ⟨m, rfl⟩ := List.length_eq_one_iff.1 hone
  cases hn
  rw [toOption_eq_some] at hread hp
  obtain ⟨hspelt, hnodes, -⟩ := length_predicts_time (c := plainSetting) (by decide) 0
  obtain ⟨htime, hwatch⟩ := hnodes n (hspelt _ _ hread n List.mem_cons_self)
  have hdecode : decodeNode plainSetting 0 n = .ok ⟨sortByStart p.events, p.time⟩ := by
    show (playNode plainSetting 0 1 n >>= _) = _
    rw [hp]
    rfl
  refine ⟨n, span, _, hread, hdecode, ?_, ?_, hwatch⟩
  · rw [sortByStart, List.length_mergeSort, hfive]
  · rw [htime _ q hdecode hq, Ratio.toRat_eq_div, hnum, hden]
    show (5 : ℚ) / 1 * 1 = 5
    norm_num

end Stave.Score
