import Mathlib.Logic.Relation
import Stave.Proofs.Score.Within

/-!
# The parts of a score as they are played

To play a node the decoder plays the nodes below it, each from a start and on a beat of its own,
and each only once those before it have been played.  Whatever is played so, at any depth, stays
inside the time that it takes: nothing starts before its part or sounds on after it.

    playSlots c d cursor ns = (traceSlots c d cursor ns).map Slots.events   (playSlots_eq)
    Part.Needs c x y: to play x the decoder comes to play y
    an event of x is that of a note, or comes from a part that x needs      (Part.exists_needed)
    x.Nonneg → x.play c = .ok p → p.Inside x.start                          (Part.Nonneg.inside)
    so is every part that a score needs, at whatever depth                  (events_inside)
-/

namespace Stave.Score

open Relation

/-! ## Slots -/

/-- An element of a group as it is played: where its slot starts, and what it plays from there. -/
structure Slot where
  start : Ratio
  passage : Passage

/-- The elements of a group as they are played, and where the slot of the last one ends. -/
structure Slots where
  played : List Slot
  stop : Ratio

def Slots.events (t : Slots) : List Event := t.played.flatMap (·.passage.events)

/-- Plays the elements of a group and keeps where the cursor stood for each, and where it is left. -/
def traceSlots (c : Setting) (d : Division) (cursor : Ratio) : List Node → Except DecodeFault Slots
  | [] => return ⟨[], cursor⟩
  | n :: ns => do
    let slot ← d.slot n
    let p ← playNode c cursor d.beat n
    let next ← inTime n.span (cursor.add? slot)
    let rest ← traceSlots c d next ns
    return ⟨⟨cursor, p⟩ :: rest.played, rest.stop⟩

section

variable {c : Setting} {d : Division} {cursor beat : Ratio} {n : Node} {ns : List Node}

/-- Keeping track changes nothing. -/
theorem playSlots_eq (c : Setting) (d : Division) (cursor : Ratio) (ns : List Node) :
    playSlots c d cursor ns = (traceSlots c d cursor ns).map Slots.events := by
  induction ns generalizing cursor with
  | nil => rfl
  | cons n ns ih =>
    rw [playSlots, traceSlots]
    simp only [ih]
    cases d.slot n with
    | error e => rfl
    | ok slot =>
      cases playNode c cursor d.beat n with
      | error e => rfl
      | ok p =>
        simp only [bind, Except.bind]
        cases inTime n.span (cursor.add? slot) with
        | error e => rfl
        | ok next =>
          simp only
          cases traceSlots c d next ns <;> rfl

theorem inTime_eq_ok_iff {span : Span} {t : Option Ratio} {q : Ratio} :
    inTime span t = .ok q ↔ t = some q := by
  refine ⟨inTime_eq_ok, ?_⟩
  rintro rfl
  rfl

theorem traceSlots_cons_eq_ok {t : Slots} : traceSlots c d cursor (n :: ns) = .ok t ↔
    ∃ slot, d.slot n = .ok slot ∧ ∃ p, playNode c cursor d.beat n = .ok p ∧
      ∃ next, cursor.add? slot = some next ∧ ∃ rest, traceSlots c d next ns = .ok rest ∧
        t = ⟨⟨cursor, p⟩ :: rest.played, rest.stop⟩ := by
  rw [traceSlots]
  simp only [bind_eq_ok_iff, inTime_eq_ok_iff, pure_eq_ok_iff]

theorem playElements_cons_eq_ok {p : Passage} : playElements c cursor beat (n :: ns) = .ok p ↔
    ∃ first, playNode c cursor beat n = .ok first ∧ ∃ next, cursor.add? first.time = some next ∧
      ∃ rest, playElements c next beat ns = .ok rest ∧
        p = ⟨first.events ++ rest.events, rest.time⟩ := by
  rw [playElements]
  simp only [bind_eq_ok_iff, inTime_eq_ok_iff, pure_eq_ok_iff]

theorem playVoices_cons_eq_ok {start longest : Ratio} {s : Sequence} {ss : List Sequence}
    {p : Passage} : playVoices c start beat longest (s :: ss) = .ok p ↔
    ∃ first, playSequence c start beat s = .ok first ∧
      ∃ rest, playVoices c start beat (max longest first.time) ss = .ok rest ∧
        p = ⟨first.events ++ rest.events, rest.time⟩ := by
  rw [playVoices]
  simp only [bind_eq_ok_iff, pure_eq_ok_iff]

end

/-! ## Parts -/

/-- A node with the start and the beat that it is played on. -/
structure Part where
  start : Ratio
  beat : Ratio
  node : Node

def Part.play (c : Setting) (x : Part) : Except DecodeFault Passage := playNode c x.start x.beat x.node

/-- To play one part, the decoder comes to play another: a node right below the first, when those
before it have been played. -/
inductive Part.Needs (c : Setting) : Part → Part → Prop
  | element {start beat : Ratio} {before after : List Node} {n : Node} {span : Span} {p : Passage}
      (h : playElements c start beat before = .ok p) :
      Needs c ⟨start, beat, .sequence ⟨before ++ n :: after, span⟩⟩ ⟨p.time, beat, n⟩
  | slot {start beat factor total weight slot : Ratio} {before after : List Node} {n : Node}
      {span : Span} {d : Division} {t : Slots} (htotal : factor.mul? beat = some total)
      (hweight : weight? (before ++ n :: after) = some weight)
      (hdivide : divide? total weight (before ++ n :: after).length = some d)
      (h : traceSlots c d start before = .ok t) (hslot : d.slot n = .ok slot) :
      Needs c ⟨start, beat, .group (before ++ n :: after) factor span⟩ ⟨t.stop, d.beat, n⟩
  | voice {start beat factor voiceBeat : Ratio} {before after : List Sequence} {s : Sequence}
      {span : Span} {p : Passage} (hbeat : factor.mul? beat = some voiceBeat)
      (h : playVoices c start voiceBeat 0 before = .ok p) :
      Needs c ⟨start, beat, .parallel (before ++ s :: after) factor span⟩
        ⟨start, voiceBeat, .sequence s⟩

section

variable {c : Setting} {x y : Part}

/-- A part that is needed is smaller. -/
theorem Part.Needs.sizeOf_lt (h : Part.Needs c x y) : sizeOf y.node < sizeOf x.node := by
  cases h with
  | @element start beat before after n span p h =>
    have hmem : sizeOf n < sizeOf (before ++ n :: after) :=
      List.sizeOf_lt_of_mem (List.mem_append_right _ List.mem_cons_self)
    simp only [Node.sequence.sizeOf_spec, Sequence.mk.sizeOf_spec]
    omega
  | @slot start beat factor total weight slot before after n span d t htotal hweight hdivide h hslot =>
    have hmem : sizeOf n < sizeOf (before ++ n :: after) :=
      List.sizeOf_lt_of_mem (List.mem_append_right _ List.mem_cons_self)
    simp only [Node.group.sizeOf_spec]
    omega
  | @voice start beat factor voiceBeat before after s span p hbeat h =>
    have hmem : sizeOf s < sizeOf (before ++ s :: after) :=
      List.sizeOf_lt_of_mem (List.mem_append_right _ List.mem_cons_self)
    simp only [Node.parallel.sizeOf_spec, Node.sequence.sizeOf_spec]
    omega

/-- A part without a negative duration, on a beat that is not negative. -/
structure Part.Nonneg (x : Part) : Prop where
  beat : 0 ≤ x.beat
  node : x.node.Nonneg

theorem Part.Nonneg.needs (hx : x.Nonneg) (h : Part.Needs c x y) : y.Nonneg := by
  obtain ⟨hbeat, hnode⟩ := hx
  cases h with
  | element h =>
    cases hnode with
    | sequence each => exact ⟨hbeat, each _ (List.mem_append_right _ List.mem_cons_self)⟩
  | slot htotal hweight hdivide h hslot =>
    cases hnode with
    | group each hfactor =>
      have htotal := Ratio.mul?_nonneg hfactor hbeat htotal
      exact ⟨divide?_beat_nonneg each htotal hweight hdivide,
        each _ (List.mem_append_right _ List.mem_cons_self)⟩
  | @voice start beat factor voiceBeat before after s span p hvoice h =>
    cases hnode with
    | parallel each hfactor =>
      have hs := each s (List.mem_append_right _ List.mem_cons_self)
      obtain ⟨elements, span⟩ := s
      exact ⟨Ratio.mul?_nonneg hfactor hbeat hvoice, .sequence hs⟩

/-- Nothing negative comes up at any depth. -/
theorem Part.Nonneg.below (hx : x.Nonneg) (h : ReflTransGen (Part.Needs c) x y) : y.Nonneg := by
  induction h with
  | refl => exact hx
  | tail _ hneeds ih => exact ih.needs hneeds

end

/-! ## Where events come from -/

section

variable {c : Setting} {start beat : Ratio} {e : Event}

theorem exists_element {ns : List Node} {p : Passage} (h : playElements c start beat ns = .ok p)
    (he : e ∈ p.events) : ∃ before n after q r, ns = before ++ n :: after ∧
      playElements c start beat before = .ok q ∧ playNode c q.time beat n = .ok r ∧
      e ∈ r.events := by
  induction ns generalizing start p with
  | nil =>
    rw [← Except.ok.inj h] at he
    exact absurd he List.not_mem_nil
  | cons n ns ih =>
    obtain ⟨first, hfirst, next, hnext, rest, hrest, rfl⟩ := playElements_cons_eq_ok.1 h
    rcases List.mem_append.1 he with he | he
    · exact ⟨[], n, ns, ⟨[], start⟩, first, rfl, rfl, hfirst, he⟩
    · obtain ⟨before, m, after, q, r, rfl, hq, hr, he⟩ := ih hrest he
      exact ⟨n :: before, m, after, _, r, rfl,
        playElements_cons_eq_ok.2 ⟨first, hfirst, next, hnext, q, hq, rfl⟩, hr, he⟩

theorem exists_slot {d : Division} {ns : List Node} {t : Slots} (h : traceSlots c d start ns = .ok t)
    (he : e ∈ t.events) : ∃ before n after u slot r, ns = before ++ n :: after ∧
      traceSlots c d start before = .ok u ∧ d.slot n = .ok slot ∧
      playNode c u.stop d.beat n = .ok r ∧ e ∈ r.events := by
  induction ns generalizing start t with
  | nil =>
    rw [← Except.ok.inj h] at he
    exact absurd he List.not_mem_nil
  | cons n ns ih =>
    obtain ⟨slot, hslot, p, hp, next, hnext, rest, hrest, rfl⟩ := traceSlots_cons_eq_ok.1 h
    rw [Slots.events, List.flatMap_cons] at he
    rcases List.mem_append.1 he with he | he
    · exact ⟨[], n, ns, ⟨[], start⟩, slot, p, rfl, rfl, hslot, hp, he⟩
    · obtain ⟨before, m, after, u, slot', r, rfl, hu, hslot', hr, he⟩ := ih hrest he
      exact ⟨n :: before, m, after, _, slot', r, rfl,
        traceSlots_cons_eq_ok.2 ⟨slot, hslot, p, hp, next, hnext, u, hu, rfl⟩, hslot', hr, he⟩

theorem exists_voice {longest : Ratio} {ss : List Sequence} {p : Passage}
    (h : playVoices c start beat longest ss = .ok p) (he : e ∈ p.events) :
    ∃ before s after q r, ss = before ++ s :: after ∧
      playVoices c start beat longest before = .ok q ∧ playSequence c start beat s = .ok r ∧
      e ∈ r.events := by
  induction ss generalizing longest p with
  | nil =>
    rw [← Except.ok.inj h] at he
    exact absurd he List.not_mem_nil
  | cons s ss ih =>
    obtain ⟨first, hfirst, rest, hrest, rfl⟩ := playVoices_cons_eq_ok.1 h
    rcases List.mem_append.1 he with he | he
    · exact ⟨[], s, ss, ⟨[], longest⟩, first, rfl, rfl, hfirst, he⟩
    · obtain ⟨before, v, after, q, r, rfl, hq, hr, he⟩ := ih hrest he
      exact ⟨s :: before, v, after, _, r, rfl,
        playVoices_cons_eq_ok.2 ⟨first, hfirst, q, hq, rfl⟩, hr, he⟩

/-- To play a group with elements is to divide its time and to play the slots in turn. -/
theorem playGroup_eq_ok {n : Node} {ns : List Node} {factor : Ratio} {span : Span} {p : Passage}
    (h : playNode c start beat (.group (n :: ns) factor span) = .ok p) :
    ∃ total weight d t, factor.mul? beat = some total ∧ weight? (n :: ns) = some weight ∧
      divide? total weight (n :: ns).length = some d ∧ traceSlots c d start (n :: ns) = .ok t ∧
      p = ⟨t.events, total⟩ := by
  rw [playNode] at h
  obtain ⟨total, htotal, h⟩ := bind_eq_ok h
  obtain ⟨weight, hweight, h⟩ := bind_eq_ok h
  cases hd : divide? total weight (n :: ns).length with
  | none =>
    simp only [hd] at h
    cases h
  | some d =>
    simp only [hd, playSlots_eq] at h
    obtain ⟨events, hevents, rfl⟩ := bind_pure_eq_ok h
    cases ht : traceSlots c d start (n :: ns) with
    | error e =>
      rw [ht] at hevents
      cases hevents
    | ok t =>
      rw [ht] at hevents
      rw [← Except.ok.inj hevents]
      exact ⟨total, weight, d, t, inTime_eq_ok htotal, inTime_eq_ok hweight, hd, ht, rfl⟩

/-- Every event of a part is that of a note, or of a part that it needs. -/
theorem Part.exists_needed {x : Part} {p : Passage} (h : x.play c = .ok p) (he : e ∈ p.events) :
    (∃ n, x.node = .note n) ∨ ∃ y q, Part.Needs c x y ∧ y.play c = .ok q ∧ e ∈ q.events := by
  obtain ⟨start, beat, n⟩ := x
  rw [Part.play] at h
  cases n with
  | note n => exact .inl ⟨n, rfl⟩
  | rest r =>
    obtain ⟨duration, hduration, rfl⟩ := bind_pure_eq_ok h
    exact absurd he List.not_mem_nil
  | sequence s =>
    right
    obtain ⟨elements, span⟩ := s
    rw [playNode, playSequence] at h
    obtain ⟨inner, hinner, h⟩ := bind_eq_ok h
    obtain ⟨time, htime, rfl⟩ := bind_pure_eq_ok h
    obtain ⟨before, n, after, q, r, rfl, hq, hr, he⟩ := exists_element hinner he
    exact ⟨⟨q.time, beat, n⟩, r, .element hq, hr, he⟩
  | group elements factor span =>
    right
    cases elements with
    | nil =>
      obtain ⟨total, htotal, h⟩ := bind_eq_ok h
      obtain ⟨weight, hweight, h⟩ := bind_eq_ok h
      rw [← Except.ok.inj h] at he
      exact absurd he List.not_mem_nil
    | cons n ns =>
      obtain ⟨total, weight, d, t, htotal, hweight, hd, ht, rfl⟩ := playGroup_eq_ok h
      obtain ⟨before, m, after, u, slot, r, hns, hu, hslot, hr, he⟩ := exists_slot ht he
      rw [hns] at hweight hd ⊢
      exact ⟨⟨u.stop, d.beat, m⟩, r, .slot htotal hweight hd hu hslot, hr, he⟩
  | parallel voices factor span =>
    right
    rw [playNode] at h
    obtain ⟨voiceBeat, hbeat, h⟩ := bind_eq_ok h
    obtain ⟨before, s, after, q, r, rfl, hq, hr, he⟩ := exists_voice h he
    exact ⟨⟨start, voiceBeat, .sequence s⟩, r, .voice (inTime_eq_ok hbeat) hq, hr, he⟩

theorem stop_eq_ok_iff {stop : Ratio} : e.stop = .ok stop ↔ e.start.add? e.duration = some stop := by
  rw [Event.stop, Ratio.add]
  cases e.start.add? e.duration <;> simp [Ratio.orFault]

/-- When a note is played, the decoder has seen that its end can be held. -/
theorem exists_stop_of_note {n : Note} {p : Passage} (h : playNode c start beat (.note n) = .ok p)
    (he : e ∈ p.events) : ∃ stop, e.stop = .ok stop := by
  rw [playNode] at h
  obtain ⟨duration, hduration, h⟩ := bind_eq_ok h
  obtain ⟨stop, hstop, h⟩ := bind_eq_ok h
  obtain ⟨e', he', rfl⟩ := bind_pure_eq_ok h
  refine ⟨stop, stop_eq_ok_iff.2 ?_⟩
  obtain rfl := List.mem_singleton.1 he
  have hplays := eventOf_plays he'
  rw [Ratio.add?_eq_some_iff, hplays.start, hplays.duration]
  exact Ratio.add?_eq_some_iff.1 (inTime_eq_ok hstop)

/-- The end of an event can be held, whatever part it comes from. -/
theorem Part.exists_stop {x : Part} {p : Passage} (h : x.play c = .ok p) (he : e ∈ p.events) :
    ∃ stop, e.stop = .ok stop := by
  -- down to the note that the event comes from
  rcases Part.exists_needed h he with ⟨n, hn⟩ | ⟨y, q, hneeds, hq, he⟩
  · obtain ⟨start, beat, node⟩ := x
    obtain rfl : node = .note n := hn
    exact exists_stop_of_note h he
  · have := hneeds.sizeOf_lt
    exact Part.exists_stop hq he
termination_by sizeOf x.node

end

/-! ## Everything stays inside -/

/-- A passage from some moment: its time is not negative, and each event starts no earlier than the
moment, does not last less than nothing, and ends, at a ratio, within that time. -/
structure Passage.Inside (p : Passage) (start : Ratio) : Prop where
  time : 0 ≤ p.time
  begins : ∀ e ∈ p.events, start ≤ e.start
  lasts : ∀ e ∈ p.events, 0 ≤ e.duration
  ends : ∀ e ∈ p.events, ∃ stop, e.stop = .ok stop ∧ stop.toRat ≤ start.toRat + p.time.toRat

section

variable {c : Setting} {x : Part} {p : Passage}

theorem Part.Nonneg.inside (hx : x.Nonneg) (h : x.play c = .ok p) : p.Inside x.start := by
  obtain ⟨hevents, htime⟩ := playNode_exact h
  have hb := Ratio.toRat_nonneg.2 hx.beat
  obtain ⟨hfollows, hnonneg⟩ := hx.node.forward x.start.toRat x.beat.toRat hb
  have hwithin := hx.node.within x.start.toRat x.beat.toRat hb
  refine ⟨?_, ?_, ?_, ?_⟩
  · rw [← Ratio.toRat_nonneg, htime]
    exact hnonneg
  · intro e he
    obtain ⟨s, hs, hplays⟩ := exists_stroke hevents he
    rw [← Ratio.toRat_le_toRat, hplays.start]
    exact (hfollows s hs).start
  · intro e he
    obtain ⟨s, hs, hplays⟩ := exists_stroke hevents he
    rw [← Ratio.toRat_nonneg, hplays.duration]
    exact (hfollows s hs).duration
  · intro e he
    obtain ⟨s, hs, hplays⟩ := exists_stroke hevents he
    obtain ⟨stop, hstop⟩ := Part.exists_stop h he
    refine ⟨stop, hstop, ?_⟩
    rw [Ratio.add?_eq_some_iff.1 (stop_eq_ok_iff.1 hstop), hplays.start, hplays.duration, htime]
    exact hwithin s hs

/-- Sorting moves no event out. -/
theorem Passage.Inside.sorted {start : Ratio} (h : p.Inside start) :
    Passage.Inside ⟨sortByStart p.events, p.time⟩ start := by
  have hmem : ∀ e ∈ sortByStart p.events, e ∈ p.events := fun e he => List.mem_mergeSort.1 he
  exact ⟨h.time, fun e he => h.begins e (hmem e he), fun e he => h.lasts e (hmem e he),
    fun e he => h.ends e (hmem e he)⟩

end

/-- Whatever part of a score is played, the score itself or anything that it needs at any depth, the
part takes no negative time, and each of its events begins and ends within that time, at a ratio.
Every tree that a source spells is without negative durations. -/
theorem events_inside {c : Setting} (hbeat : 0 ≤ c.defaults.beat) :
    (∀ source s, read source = .ok s → ∀ n ∈ s.elements, n.Nonneg) ∧
    (∀ (start : Ratio) (n : Node), n.Nonneg →
      (∀ x, ReflTransGen (Part.Needs c) ⟨start, c.defaults.beat, n⟩ x →
        ∀ p, x.play c = .ok p → p.Inside x.start) ∧
      ∀ p, decodeNode c start n = .ok p → p.Inside start) ∧
    ∀ (start : Ratio) (s : Sequence), (∀ n ∈ s.elements, n.Nonneg) →
      ∀ events, decode c start s = .ok events →
        ∃ time, decodeNode c start (.sequence s) = .ok ⟨events, time⟩ ∧
          Passage.Inside ⟨events, time⟩ start := by
  have hdecoded : ∀ {start : Ratio} {n : Node} {p : Passage}, n.Nonneg →
      decodeNode c start n = .ok p → p.Inside start := by
    intro start n p hn hp
    obtain ⟨q, hq, rfl⟩ := bind_pure_eq_ok hp
    have hnonneg : Part.Nonneg ⟨start, c.defaults.beat, n⟩ := ⟨hbeat, hn⟩
    exact (hnonneg.inside hq).sorted
  refine ⟨?_, ?_, ?_⟩
  · intro source s hread n hn
    exact (spelt_of_read hread n hn).nonneg
  · intro start n hn
    have hnonneg : Part.Nonneg ⟨start, c.defaults.beat, n⟩ := ⟨hbeat, hn⟩
    exact ⟨fun x hx p hp => (hnonneg.below hx).inside hp, fun p hp => hdecoded hn hp⟩
  · rintro start ⟨elements, span⟩ hs events hdecode
    obtain ⟨time, hp⟩ := exists_decodeNode hdecode
    exact ⟨time, hp, hdecoded (.sequence hs) hp⟩

/-- A group from beat seven, and the part of it that its first event comes from. -/
theorem events_inside_nested : ∃ n span p y q,
    read "([4 5, 6!]/2 (0@0 1@0)@3)@5".toList = .ok ⟨[n], span⟩ ∧
    decodeNode plainSetting (.ofInt 7 (by decide)) n = .ok p ∧ p.events.length = 5 ∧
    p.Inside (.ofInt 7 (by decide)) ∧
    Part.Needs plainSetting ⟨.ofInt 7 (by decide), 1, n⟩ y ∧ y.play plainSetting = .ok q ∧
    q.events ≠ [] ∧ q.Inside y.start := by
  have hplays : ((read "([4 5, 6!]/2 (0@0 1@0)@3)@5".toList).toOption.bind fun s =>
      s.elements.head?.bind fun n =>
      (playNode plainSetting (.ofInt 7 (by decide)) 1 n).toOption.map fun p =>
        (s.elements.length, p.events.length)) = some (1, 5) := by
    decide +kernel
  obtain ⟨⟨elements, span⟩, hread, hplays⟩ := Option.bind_eq_some_iff.1 hplays
  obtain ⟨n, hn, hplays⟩ := Option.bind_eq_some_iff.1 hplays
  obtain ⟨p, hp, hlengths⟩ := Option.map_eq_some_iff.1 hplays
  obtain ⟨hone, hfive⟩ := Prod.mk.inj hlengths
  obtain ⟨m, rfl⟩ := List.length_eq_one_iff.1 hone
  cases hn
  rw [toOption_eq_some] at hread hp
  obtain ⟨hspelt, hnodes, -⟩ := events_inside (c := plainSetting) (by decide)
  have hnonneg : n.Nonneg := hspelt _ _ hread n List.mem_cons_self
  obtain ⟨hparts, hdecoded⟩ := hnodes (.ofInt 7 (by decide)) n hnonneg
  have hdecode := decodeNode_of_play hp
  obtain ⟨e, he⟩ := List.exists_mem_of_length_pos (Nat.lt_of_lt_of_eq (Nat.succ_pos 4) hfive.symm)
  rcases Part.exists_needed (x := ⟨.ofInt 7 (by decide), 1, n⟩) hp he with
    ⟨note, hnote⟩ | ⟨y, q, hneeds, hq, he⟩
  · obtain rfl : n = .note note := hnote
    obtain ⟨duration, -, h⟩ := bind_eq_ok hp
    obtain ⟨stop, -, h⟩ := bind_eq_ok h
    obtain ⟨e', -, rfl⟩ := bind_pure_eq_ok h
    cases hfive
  · refine ⟨n, span, _, y, q, hread, hdecode, ?_, hdecoded _ hdecode, hneeds, hq,
      List.ne_nil_of_mem he, hparts y (.single hneeds) q hq⟩
    rw [sortByStart, List.length_mergeSort, hfive]

end Stave.Score
