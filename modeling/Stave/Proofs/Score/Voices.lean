import Mathlib.Data.List.Perm.Basic
import Stave.Proofs.Score.Join
import Stave.Proofs.Score.Parts

/-!
# Voices are independent

The voices of a parallel block start together, and none knows of the others.  In whatever order they
are written, the block is as long and plays the same events in the same time, or cannot be played at
all.  A node that is as long as another and takes as long can stand in its place, at any depth, and
nothing outside it changes: so the order of voices is not heard anywhere else.

    Node.Replaced x y n m: m is n with y in the place of x
    y.StandsFor c x → Replaced x y n m → n can be played →
      m can be, in the same time, and plays what n plays around x           (Replaced.play)
    voices.Perm voices' → either block stands for the other                 (standsFor_of_perm)
    events in another order are sorted by the same starts                   (starts_of_perm)
    decoding with the voices of one block in another order                  (voices_independent)
-/

namespace Stave.Score

/-! ## A node in the place of another -/

/-- The second node of the last two is the first with `y` in the place of `x`, at any depth. -/
inductive Node.Replaced (x y : Node) : Node → Node → Prop
  | here : Replaced x y x y
  | element {before after : List Node} {n m : Node} {span : Span} (h : Replaced x y n m) :
      Replaced x y (.sequence ⟨before ++ n :: after, span⟩) (.sequence ⟨before ++ m :: after, span⟩)
  | slot {before after : List Node} {n m : Node} {factor : Ratio} {span : Span}
      (h : Replaced x y n m) :
      Replaced x y (.group (before ++ n :: after) factor span)
        (.group (before ++ m :: after) factor span)
  | voice {before after : List Sequence} {s t : Sequence} {factor : Ratio} {span : Span}
      (h : Replaced x y (.sequence s) (.sequence t)) :
      Replaced x y (.parallel (before ++ s :: after) factor span)
        (.parallel (before ++ t :: after) factor span)

/-- What a node has to owe to stand in the place of another: the length, and, whenever the other can
be played, that it can be played too and takes as long. -/
structure Node.StandsFor (c : Setting) (y x : Node) : Prop where
  length : x.length? = y.length?
  plays : ∀ {start beat : Ratio} {p : Passage}, playNode c start beat x = .ok p →
    ∃ q, playNode c start beat y = .ok q ∧ p.time = q.time

/-- Two passages that take the same time and differ only in what one part of them plays, from the
same start and on the same beat. -/
structure Passage.Around (c : Setting) (x y : Node) (p q : Passage) : Prop where
  time : p.time = q.time
  events : ∃ (start beat : Ratio) (px py : Passage) (before after : List Event),
    playNode c start beat x = .ok px ∧ playNode c start beat y = .ok py ∧
    p.events = before ++ (px.events ++ after) ∧ q.events = before ++ (py.events ++ after)

section

variable {c : Setting} {x y n m : Node} {p q : Passage} {cursor start beat : Ratio}

theorem Node.Replaced.symm (h : Replaced x y n m) : Replaced y x m n := by
  induction h with
  | here => exact .here
  | element _ ih => exact .element ih
  | slot _ ih => exact .slot ih
  | voice _ ih => exact .voice ih

/-- Whatever is played before and after the part, it is played around both. -/
theorem Passage.Around.wrap (h : p.Around c x y q) {time time' : Ratio} (htime : time = time')
    (before after : List Event) :
    Passage.Around c x y ⟨before ++ (p.events ++ after), time⟩
      ⟨before ++ (q.events ++ after), time'⟩ := by
  obtain ⟨start, beat, px, py, front, back, hx, hy, hp, hq⟩ := h.events
  refine ⟨htime, start, beat, px, py, before ++ front, back ++ after, hx, hy, ?_, ?_⟩
  · rw [hp]
    simp only [List.append_assoc]
  · rw [hq]
    simp only [List.append_assoc]

/-! ### Lengths -/

theorem lengths?_around (h : n.length? = m.length?) (before after : List Node) :
    lengths? (before ++ n :: after) = lengths? (before ++ m :: after) := by
  induction before with
  | nil => rw [List.nil_append, List.nil_append, lengths?, lengths?, h]
  | cons b before ih => rw [List.cons_append, List.cons_append, lengths?, lengths?, ih]

theorem voiceLengths?_around {s t : Sequence} (h : s.length? = t.length?)
    (before after : List Sequence) :
    voiceLengths? (before ++ s :: after) = voiceLengths? (before ++ t :: after) := by
  induction before with
  | nil => rw [List.nil_append, List.nil_append, voiceLengths?, voiceLengths?, h]
  | cons b before ih => rw [List.cons_append, List.cons_append, voiceLengths?, voiceLengths?, ih]

theorem Node.Replaced.length? (h : Replaced x y n m) (hxy : x.length? = y.length?) :
    n.length? = m.length? := by
  induction h with
  | here => exact hxy
  | @element before after n m span _ ih =>
    rw [Node.length?, Node.length?, Sequence.length?, Sequence.length?, lengths?_around ih]
  | slot _ _ => rfl
  | @voice before after s t factor span _ ih =>
    have hs : s.length? = t.length? := by rwa [Node.length?, Node.length?] at ih
    rw [Node.length?, Node.length?, voiceLengths?_around hs]

/-! ### Before and after one of many -/

theorem traceSlots_append (c : Setting) (d : Division) (cursor : Ratio) (ns ms : List Node) :
    traceSlots c d cursor (ns ++ ms) = do
      let t ← traceSlots c d cursor ns
      let u ← traceSlots c d t.stop ms
      return ⟨t.played ++ u.played, u.stop⟩ := by
  induction ns generalizing cursor with
  | nil =>
    rw [traceSlots, List.nil_append, pure_bind]
    exact (bind_pure _).symm
  | cons n ns ih =>
    rw [List.cons_append, traceSlots, traceSlots]
    simp only [bind_assoc, pure_bind, ih, List.cons_append]

theorem playVoices_append (c : Setting) (start beat longest : Ratio) (ss ts : List Sequence) :
    playVoices c start beat longest (ss ++ ts) = do
      let p ← playVoices c start beat longest ss
      let q ← playVoices c start beat p.time ts
      return ⟨p.events ++ q.events, q.time⟩ := by
  induction ss generalizing longest with
  | nil =>
    rw [playVoices, List.nil_append, pure_bind]
    exact (bind_pure _).symm
  | cons s ss ih =>
    rw [List.cons_append, playVoices, playVoices]
    simp only [bind_assoc, pure_bind, ih, List.append_assoc]

theorem playGroup_of_slots {n : Node} {ns : List Node} {factor total weight : Ratio} {d : Division}
    {t : Slots} (htotal : factor.mul? beat = some total) (hweight : weight? (n :: ns) = some weight)
    (hd : divide? total weight (n :: ns).length = some d)
    (ht : traceSlots c d start (n :: ns) = .ok t) (span : Span) :
    playNode c start beat (.group (n :: ns) factor span) = .ok ⟨t.events, total⟩ := by
  rw [playNode]
  refine bind_eq_ok_iff.2 ⟨total, inTime_eq_ok_iff.2 htotal,
    bind_eq_ok_iff.2 ⟨weight, inTime_eq_ok_iff.2 hweight, ?_⟩⟩
  dsimp only
  rw [hd]
  dsimp only
  rw [playSlots_eq, ht]
  rfl

theorem Division.slot_congr {d : Division} {slot : Ratio} (h : n.length? = m.length?)
    (hslot : d.slot n = .ok slot) : d.slot m = .ok slot := by
  unfold Division.slot at hslot ⊢
  by_cases heven : d.even
  · rw [if_pos heven] at hslot ⊢
    exact hslot
  · rw [if_neg heven] at hslot ⊢
    obtain ⟨length, hlength, htime⟩ := bind_eq_ok hslot
    rw [inTime_eq_ok_iff] at hlength htime
    exact bind_eq_ok_iff.2
      ⟨length, inTime_eq_ok_iff.2 (h.symm.trans hlength), inTime_eq_ok_iff.2 htime⟩

theorem playElements_around {before after : List Node} :
    playElements c cursor beat (before ++ n :: after) = .ok p ↔
      ∃ front, playElements c cursor beat before = .ok front ∧
        ∃ q, playNode c front.time beat n = .ok q ∧ ∃ next, front.time.add? q.time = some next ∧
          ∃ back, playElements c next beat after = .ok back ∧
            p = ⟨front.events ++ (q.events ++ back.events), back.time⟩ := by
  rw [playElements_append]
  simp only [bind_eq_ok_iff, pure_eq_ok_iff, playElements_cons_eq_ok]
  constructor
  · rintro ⟨front, hfront, _, ⟨q, hq, next, hnext, back, hback, rfl⟩, rfl⟩
    exact ⟨front, hfront, q, hq, next, hnext, back, hback, rfl⟩
  · rintro ⟨front, hfront, q, hq, next, hnext, back, hback, rfl⟩
    exact ⟨front, hfront, _, ⟨q, hq, next, hnext, back, hback, rfl⟩, rfl⟩

theorem traceSlots_around {d : Division} {before after : List Node} {t : Slots} :
    traceSlots c d cursor (before ++ n :: after) = .ok t ↔
      ∃ front, traceSlots c d cursor before = .ok front ∧
        ∃ slot, d.slot n = .ok slot ∧ ∃ q, playNode c front.stop d.beat n = .ok q ∧
          ∃ next, front.stop.add? slot = some next ∧
            ∃ back, traceSlots c d next after = .ok back ∧
              t = ⟨front.played ++ ⟨front.stop, q⟩ :: back.played, back.stop⟩ := by
  rw [traceSlots_append]
  simp only [bind_eq_ok_iff, pure_eq_ok_iff, traceSlots_cons_eq_ok]
  constructor
  · rintro ⟨front, hfront, _, ⟨slot, hslot, q, hq, next, hnext, back, hback, rfl⟩, rfl⟩
    exact ⟨front, hfront, slot, hslot, q, hq, next, hnext, back, hback, rfl⟩
  · rintro ⟨front, hfront, slot, hslot, q, hq, next, hnext, back, hback, rfl⟩
    exact ⟨front, hfront, _, ⟨slot, hslot, q, hq, next, hnext, back, hback, rfl⟩, rfl⟩

theorem playVoices_around {longest : Ratio} {before after : List Sequence} {s : Sequence} :
    playVoices c start beat longest (before ++ s :: after) = .ok p ↔
      ∃ front, playVoices c start beat longest before = .ok front ∧
        ∃ q, playSequence c start beat s = .ok q ∧
          ∃ back, playVoices c start beat (max front.time q.time) after = .ok back ∧
            p = ⟨front.events ++ (q.events ++ back.events), back.time⟩ := by
  rw [playVoices_append]
  simp only [bind_eq_ok_iff, pure_eq_ok_iff, playVoices_cons_eq_ok]
  constructor
  · rintro ⟨front, hfront, _, ⟨q, hq, back, hback, rfl⟩, rfl⟩
    exact ⟨front, hfront, q, hq, back, hback, rfl⟩
  · rintro ⟨front, hfront, q, hq, back, hback, rfl⟩
    exact ⟨front, hfront, _, ⟨q, hq, back, hback, rfl⟩, rfl⟩

/-! ### Playing -/

/-- A node that owes what another owes changes nothing around it. -/
theorem Node.Replaced.play (h : Replaced x y n m) (hxy : y.StandsFor c x)
    (hp : playNode c start beat n = .ok p) :
    ∃ q, playNode c start beat m = .ok q ∧ p.Around c x y q := by
  induction h generalizing start beat p with
  | here =>
    obtain ⟨q, hq, htime⟩ := hxy.plays hp
    exact ⟨q, hq, htime, start, beat, p, q, [], [], hp, hq, by simp, by simp⟩
  | @element before after n m span h ih =>
    rw [playNode, playSequence] at hp ⊢
    obtain ⟨inner, hinner, hp⟩ := bind_eq_ok hp
    obtain ⟨time, htime, rfl⟩ := bind_pure_eq_ok hp
    obtain ⟨front, hfront, u, hu, next, hnext, back, hback, rfl⟩ := playElements_around.1 hinner
    obtain ⟨v, hv, haround⟩ := ih hu
    rw [haround.time] at hnext
    have hinner' := playElements_around.2 ⟨front, hfront, v, hv, next, hnext, back, hback, rfl⟩
    exact ⟨_, bind_eq_ok_iff.2 ⟨_, hinner', bind_pure_eq_ok_iff.2 ⟨time, htime, rfl⟩⟩,
      haround.wrap rfl front.events back.events⟩
  | @slot before after n m factor span h ih =>
    have hlength := h.length? hxy.length
    have hweights : weight? (before ++ n :: after) = weight? (before ++ m :: after) := by
      rw [weight?, weight?, lengths?_around hlength]
    have hcount : (before ++ n :: after).length = (before ++ m :: after).length := by
      rw [List.length_append, List.length_append, List.length_cons, List.length_cons]
    have hcons : ∀ k : Node, ∃ first others, before ++ k :: after = first :: others := fun k =>
      List.exists_cons_of_ne_nil (List.append_ne_nil_of_right_ne_nil before (List.cons_ne_nil k after))
    obtain ⟨first, others, hn⟩ := hcons n
    obtain ⟨first', others', hm⟩ := hcons m
    rw [hn] at hp
    obtain ⟨total, weight, d, t, htotal, hweight, hd, ht, rfl⟩ := playGroup_eq_ok hp
    rw [← hn] at hweight hd ht
    obtain ⟨front, hfront, slot, hslot, u, hu, next, hnext, back, hback, rfl⟩ :=
      traceSlots_around.1 ht
    obtain ⟨v, hv, haround⟩ := ih hu
    have ht' := traceSlots_around.2
      ⟨front, hfront, slot, Division.slot_congr hlength hslot, v, hv, next, hnext, back, hback, rfl⟩
    rw [hweights] at hweight
    rw [hcount] at hd
    rw [hm] at hweight hd ht' ⊢
    refine ⟨_, playGroup_of_slots htotal hweight hd ht' span, ?_⟩
    have hevents : ∀ w : Passage, Slots.events
        ⟨front.played ++ ⟨front.stop, w⟩ :: back.played, back.stop⟩ =
          front.events ++ (w.events ++ back.events) := by
      intro w
      rw [Slots.events, List.flatMap_append, List.flatMap_cons]
      rfl
    rw [hevents, hevents]
    exact haround.wrap rfl _ _
  | @voice before after s t factor span h ih =>
    rw [playNode] at hp ⊢
    obtain ⟨voiceBeat, hbeat, hp⟩ := bind_eq_ok hp
    obtain ⟨front, hfront, u, hu, back, hback, rfl⟩ := playVoices_around.1 hp
    obtain ⟨v, hv, haround⟩ := ih (by rw [playNode]; exact hu)
    rw [playNode] at hv
    rw [haround.time] at hback
    have hp' := playVoices_around.2 ⟨front, hfront, v, hv, back, hback, rfl⟩
    exact ⟨_, bind_eq_ok_iff.2 ⟨voiceBeat, hbeat, hp'⟩, haround.wrap rfl front.events back.events⟩

end

/-! ## Voices in another order -/

section

variable {c : Setting} {start beat sofar : Ratio} {ss ts voices voices' : List Sequence}

theorem voiceLengths?_eq_some {qs : List Ratio} : voiceLengths? ss = some qs ↔
    List.Forall₂ (fun (s : Sequence) q => s.length? = some q) ss qs := by
  induction ss generalizing qs with
  | nil =>
    rw [voiceLengths?, List.forall₂_nil_left_iff]
    exact Option.some_inj.trans eq_comm
  | cons s ss ih =>
    rw [voiceLengths?]
    constructor
    · intro h
      obtain ⟨q, hq, h⟩ := Option.bind_eq_some_iff.1 h
      obtain ⟨qs', hqs, h⟩ := Option.bind_eq_some_iff.1 h
      rw [← Option.some.inj h]
      exact .cons hq (ih.1 hqs)
    · rintro (_ | ⟨hq, hqs⟩)
      rw [hq, ih.2 hqs]
      rfl

/-- Each voice is played for itself; only the time taken in the end is that of the longest. -/
theorem playVoices_eq_ok {p : Passage} : playVoices c start beat sofar ss = .ok p ↔
    ∃ ps, List.Forall₂ (fun s q => playSequence c start beat s = .ok q) ss ps ∧
      p = ⟨ps.flatMap Passage.events, (ps.map Passage.time).foldl max sofar⟩ := by
  induction ss generalizing sofar p with
  | nil =>
    rw [playVoices, pure_eq_ok_iff]
    simp only [List.forall₂_nil_left_iff]
    constructor
    · rintro rfl
      exact ⟨[], rfl, rfl⟩
    · rintro ⟨ps, rfl, rfl⟩
      rfl
  | cons s ss ih =>
    rw [playVoices_cons_eq_ok]
    constructor
    · rintro ⟨first, hfirst, rest, hrest, rfl⟩
      obtain ⟨ps, hps, rfl⟩ := ih.1 hrest
      exact ⟨first :: ps, .cons hfirst hps, rfl⟩
    · rintro ⟨_, _ | ⟨hfirst, hps⟩, rfl⟩
      exact ⟨_, hfirst, _, ih.2 ⟨_, hps, rfl⟩, rfl⟩

theorem foldl_max_perm {qs rs : List Ratio} (h : qs.Perm rs) (q : Ratio) :
    qs.foldl max q = rs.foldl max q :=
  h.foldl_eq' (fun a _ b _ z => Ratio.max_max_swap z a b) q

theorem exists_voiceLengths_of_perm {qs : List Ratio} (h : ss.Perm ts)
    (hqs : voiceLengths? ss = some qs) :
    ∃ rs, voiceLengths? ts = some rs ∧ longest qs = longest rs := by
  obtain ⟨rs, hrs, hperm⟩ := List.perm_comp_forall₂ h.symm (voiceLengths?_eq_some.1 hqs)
  exact ⟨rs, voiceLengths?_eq_some.2 hrs, foldl_max_perm hperm.symm 0⟩

theorem exists_playVoices_of_perm {p : Passage} (h : ss.Perm ts)
    (hp : playVoices c start beat sofar ss = .ok p) :
    ∃ q, playVoices c start beat sofar ts = .ok q ∧ p.time = q.time ∧ p.events.Perm q.events := by
  obtain ⟨ps, hps, rfl⟩ := playVoices_eq_ok.1 hp
  obtain ⟨qs, hqs, hperm⟩ := List.perm_comp_forall₂ h.symm hps
  exact ⟨_, playVoices_eq_ok.2 ⟨qs, hqs, rfl⟩, foldl_max_perm (hperm.symm.map _) sofar,
    hperm.symm.flatMap_right _⟩

variable {factor : Ratio} {span : Span}

theorem length?_parallel_of_perm (h : voices.Perm voices') :
    (Node.parallel voices factor span).length? = (Node.parallel voices' factor span).length? := by
  refine Option.ext fun q => ?_
  have hlongest : ∀ {ss ts : List Sequence}, ss.Perm ts →
      (Node.parallel ss factor span).length? = some q →
        (Node.parallel ts factor span).length? = some q := by
    intro ss ts h hq
    rw [Node.length?] at hq ⊢
    obtain ⟨qs, hqs, hq⟩ := Option.bind_eq_some_iff.1 hq
    obtain ⟨rs, hrs, hsame⟩ := exists_voiceLengths_of_perm h hqs
    exact Option.bind_eq_some_iff.2 ⟨rs, hrs, hsame ▸ hq⟩
  exact ⟨hlongest h, hlongest h.symm⟩

/-- In whatever order its voices are written, a block plays the same events in the same time. -/
theorem playNode_parallel_of_perm {p : Passage} (h : voices.Perm voices')
    (hp : playNode c start beat (.parallel voices factor span) = .ok p) :
    ∃ q, playNode c start beat (.parallel voices' factor span) = .ok q ∧ p.time = q.time ∧
      p.events.Perm q.events := by
  rw [playNode] at hp ⊢
  obtain ⟨voiceBeat, hbeat, hp⟩ := bind_eq_ok hp
  obtain ⟨q, hq, htime, hevents⟩ := exists_playVoices_of_perm h hp
  exact ⟨q, bind_eq_ok_iff.2 ⟨voiceBeat, hbeat, hq⟩, htime, hevents⟩

theorem standsFor_of_perm (h : voices.Perm voices') :
    (Node.parallel voices' factor span).StandsFor c (.parallel voices factor span) where
  length := length?_parallel_of_perm h
  plays hp := by
    obtain ⟨q, hq, htime, -⟩ := playNode_parallel_of_perm h hp
    exact ⟨q, hq, htime⟩

end

/-! ## Sorting in another order -/

/-- The same events at the same places in time: only events that start together can change places. -/
structure Shuffled (es es' : List Event) : Prop where
  perm : es.Perm es'
  starts : es.map Event.start = es'.map Event.start

theorem starts_of_perm {es es' : List Event} (h : es.Perm es') :
    (sortByStart es).map Event.start = (sortByStart es').map Event.start := by
  have hsorted : ∀ es : List Event, ((sortByStart es).map Event.start).Pairwise (· ≤ ·) := fun es =>
    List.pairwise_map.2 (pairwise_sortByStart es)
  have hperm : (sortByStart es).Perm (sortByStart es') :=
    (List.mergeSort_perm es _).trans (h.trans (List.mergeSort_perm es' _).symm)
  refine List.Perm.eq_of_pairwise (fun a b _ _ hab hba => ?_) (hsorted es) (hsorted es')
    (hperm.map Event.start)
  rw [← Ratio.toRat_le_toRat] at hab hba
  exact Ratio.toRat_injective (le_antisymm hab hba)

theorem shuffled_of_perm {es es' : List Event} (h : es.Perm es') :
    Shuffled (sortByStart es) (sortByStart es') :=
  ⟨(List.mergeSort_perm es _).trans (h.trans (List.mergeSort_perm es' _).symm), starts_of_perm h⟩

/-! ## Decoding -/

/-- Two decoded passages that differ only in what one part plays: the same events in the same time,
with the same played before that part and after it. -/
structure Passage.Reordered (c : Setting) (x y : Node) (p q : Passage) : Prop where
  time : p.time = q.time
  shuffled : Shuffled p.events q.events
  around : ∃ (start beat : Ratio) (part part' : Passage) (before after : List Event),
    playNode c start beat x = .ok part ∧ playNode c start beat y = .ok part' ∧
    part.time = part'.time ∧ part.events.Perm part'.events ∧
    p.events = sortByStart (before ++ (part.events ++ after)) ∧
    q.events = sortByStart (before ++ (part'.events ++ after))

section

variable {c : Setting} {voices voices' : List Sequence} {factor : Ratio} {span : Span}

theorem Node.Replaced.decodeNode {n m : Node} {start : Ratio} {p : Passage}
    (h : voices.Perm voices')
    (hr : Replaced (.parallel voices factor span) (.parallel voices' factor span) n m)
    (hp : Score.decodeNode c start n = .ok p) :
    ∃ q, Score.decodeNode c start m = .ok q ∧
      p.Reordered c (.parallel voices factor span) (.parallel voices' factor span) q := by
  obtain ⟨u, hu, rfl⟩ := bind_pure_eq_ok hp
  obtain ⟨v, hv, haround⟩ := hr.play (standsFor_of_perm h) hu
  obtain ⟨begin, beat, part, part', before, after, hpart, hpart', hevents, hevents'⟩ :=
    haround.events
  obtain ⟨other, hother, htime, hperm⟩ := playNode_parallel_of_perm h hpart
  obtain rfl := Except.ok.inj (hother.symm.trans hpart')
  refine ⟨_, bind_pure_eq_ok_iff.2 ⟨v, hv, rfl⟩, haround.time, shuffled_of_perm ?_,
    begin, beat, part, other, before, after, hpart, hpart', htime, hperm, ?_, ?_⟩
  · rw [hevents, hevents']
    exact (hperm.append_right after).append_left before
  · rw [← hevents]
  · rw [← hevents']

theorem Node.Replaced.decode {s s' : Sequence} {start : Ratio} {events : List Event}
    (h : voices.Perm voices')
    (hr : Replaced (.parallel voices factor span) (.parallel voices' factor span)
      (.sequence s) (.sequence s'))
    (hevents : Score.decode c start s = .ok events) :
    ∃ events', Score.decode c start s' = .ok events' ∧ Shuffled events events' := by
  obtain ⟨time, hp⟩ := exists_decodeNode hevents
  obtain ⟨q, hq, hsame⟩ := hr.decodeNode h hp
  refine ⟨q.events, ?_, hsame.shuffled⟩
  rw [decode_eq, hq]
  rfl

/-- The order of the voices of a block, at any depth of what is decoded, is not heard outside it.
Either order can be decoded if the other can; both take the same time and play the same events, of
which only those that start together can change places; and whatever else is played is the same. -/
theorem voices_independent (h : voices.Perm voices') (start : Ratio) :
    (∀ n m, Node.Replaced (.parallel voices factor span) (.parallel voices' factor span) n m →
      ((∃ p, decodeNode c start n = .ok p) ↔ ∃ q, decodeNode c start m = .ok q) ∧
      ∀ p q, decodeNode c start n = .ok p → decodeNode c start m = .ok q →
        p.Reordered c (.parallel voices factor span) (.parallel voices' factor span) q) ∧
    ∀ s s', Node.Replaced (.parallel voices factor span) (.parallel voices' factor span)
        (.sequence s) (.sequence s') →
      ((∃ events, decode c start s = .ok events) ↔ ∃ events', decode c start s' = .ok events') ∧
      ∀ events events', decode c start s = .ok events → decode c start s' = .ok events' →
        Shuffled events events' := by
  refine ⟨fun n m hr => ⟨⟨?_, ?_⟩, fun p q hp hq => ?_⟩,
    fun s s' hr => ⟨⟨?_, ?_⟩, fun events events' hevents hevents' => ?_⟩⟩
  · rintro ⟨p, hp⟩
    obtain ⟨q, hq, -⟩ := hr.decodeNode h hp
    exact ⟨q, hq⟩
  · rintro ⟨q, hq⟩
    obtain ⟨p, hp, -⟩ := hr.symm.decodeNode h.symm hq
    exact ⟨p, hp⟩
  · obtain ⟨q', hq', hsame⟩ := hr.decodeNode h hp
    exact Except.ok.inj (hq'.symm.trans hq) ▸ hsame
  · rintro ⟨events, hevents⟩
    obtain ⟨events', hevents', -⟩ := hr.decode h hevents
    exact ⟨events', hevents'⟩
  · rintro ⟨events', hevents'⟩
    obtain ⟨events, hevents, -⟩ := hr.symm.decode h.symm hevents'
    exact ⟨events, hevents⟩
  · obtain ⟨other, hother, hsame⟩ := hr.decode h hevents
    exact Except.ok.inj (hother.symm.trans hevents') ▸ hsame

end

/-- A voice of one note. -/
def lone (degree : Int) : Sequence := ⟨[.note ⟨.degree degree, 1, 0, [], default⟩], default⟩

/-- Two voices, the first of which rests after its note. -/
def unequal : List Sequence :=
  [⟨(lone 1).elements ++ [.rest ⟨1, default⟩], default⟩, lone 2]

/-- A block between two notes, in one of the slots of a group. -/
def amid (voices : List Sequence) : Sequence :=
  ⟨[.group [.sequence (lone 0), .parallel voices 1 default, .sequence (lone 4)] 1 default],
    default⟩

/-- The longer voice first, or the shorter. -/
theorem voices_independent_amid : ∃ events events',
    decode plainSetting 0 (amid unequal) = .ok events ∧
    decode plainSetting 0 (amid unequal.reverse) = .ok events' ∧
    events.map Event.pitch = [60, 62, 64, 67] ∧ events'.map Event.pitch = [60, 64, 62, 67] ∧
    Shuffled events events' := by
  have hdecodes : ∀ {voices : List Sequence} {pitches : List Pitch},
      (playSequence plainSetting 0 1 (amid voices)).toOption.map (fun p =>
        (p.events.map Event.pitch, decide (p.events.Pairwise fun a b => a.start ≤ b.start))) =
        some (pitches, true) →
      ∃ events, decode plainSetting 0 (amid voices) = .ok events ∧
        events.map Event.pitch = pitches := by
    intro voices pitches h
    obtain ⟨p, hp, hevents⟩ := Option.map_eq_some_iff.1 h
    obtain ⟨rfl, hsorted⟩ := Prod.mk.inj hevents
    exact ⟨_, decode_of_sorted (toOption_eq_some.1 hp) (of_decide_eq_true hsorted), rfl⟩
  obtain ⟨events, hevents, hpitches⟩ :=
    @hdecodes unequal [60, 62, 64, 67] (by decide +kernel)
  obtain ⟨events', hevents', hpitches'⟩ :=
    @hdecodes unequal.reverse [60, 64, 62, 67] (by decide +kernel)
  have hreplaced : Node.Replaced (.parallel unequal 1 default) (.parallel unequal.reverse 1 default)
      (.sequence (amid unequal)) (.sequence (amid unequal.reverse)) :=
    @Node.Replaced.element _ _ [] [] _ _ _ (@Node.Replaced.slot _ _ [_] [_] _ _ _ _ .here)
  have hperm : unequal.Perm unequal.reverse := (List.reverse_perm unequal).symm
  obtain ⟨-, hscores⟩ := @voices_independent plainSetting _ _ 1 default hperm 0
  exact ⟨events, events', hevents, hevents', hpitches, hpitches',
    (hscores _ _ hreplaced).2 _ _ hevents hevents'⟩

end Stave.Score
