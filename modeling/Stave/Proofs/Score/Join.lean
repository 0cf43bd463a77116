import Stave.Proofs.Score.Bare
import Stave.Proofs.Score.Place
import Stave.Proofs.Score.Within

/-!
# One source after another

Two sources with a new line between them are one source.  Its lexemes are those of the first and
then those of the second, moved; no mark of the second is caught by an element of the first; and
since what the first plays is over before the second begins, sorting leaves the two apart.

    read a = .ok sa, read b = .ok sb → a ++ '\n' :: b has the elements of both   (read_append)
    playElements of ns ++ ms is that of ns, then that of ms where ns ends        (playElements_append)
    all of as start before all of bs →
      sorting as ++ bs is sorting as and sorting bs                              (mergeSort_append)
    decoding the joined source is decoding one and then the other                (read_join)
-/

namespace Stave.Score

open Stave.Text

/-! ## Reading -/

theorem phraseLexemes_append (ps qs : List Phrase) :
    phraseLexemes (ps ++ qs) = phraseLexemes ps ++ phraseLexemes qs := by
  induction ps with
  | nil =>
    rw [phraseLexemes]
    rfl
  | cons p ps ih => rw [List.cons_append, phraseLexemes, phraseLexemes, ih, List.append_assoc]

theorem phraseNodes?_append {ps qs : List Phrase} {ns ms : List Node} (hp : phraseNodes? ps = some ns)
    (hq : phraseNodes? qs = some ms) : phraseNodes? (ps ++ qs) = some (ns ++ ms) := by
  induction ps generalizing ns with
  | nil =>
    rw [phraseNodes?_nil_eq_some.1 hp]
    exact hq
  | cons p ps ih =>
    obtain ⟨n, ns, hn, hns, rfl⟩ := phraseNodes?_cons_eq_some.1 hp
    exact phraseNodes?_cons_eq_some.2 ⟨n, ns ++ ms, hn, ih hns, rfl⟩

section

variable {a b : List Char} {sa sb : Sequence}

/-- A new line parts the lexemes of two sources. -/
theorem items_append {ls ms : List Lexeme} (ha : items a = ls.map .ok) (hb : items b = ms.map .ok) :
    items (a ++ '\n' :: b) = (ls ++ ms.map (Lexeme.later (byteLength a + 1))).map .ok := by
  have hcut : itemsFrom 0 (a ++ '\n' :: b) = itemsFrom 0 a ++ itemsFrom (0 + byteLength a) ('\n' :: b) :=
    cut_end (quiet_newline b)
  have hmoved := itemsFrom_later (o := 0) hb (byteLength a + 1)
  rw [Nat.zero_add] at hcut hmoved
  rw [itemsFrom_blank rfl] at hcut
  rw [List.map_append, ← ha, ← hmoved]
  exact hcut

/-- Sources that can be read can be read together. -/
theorem read_append (ha : read a = .ok sa) (hb : read b = .ok sb) :
    read (a ++ '\n' :: b) = .ok
      ⟨sa.elements ++ sb.elements.map (Node.later (byteLength a + 1)),
        ⟨0, byteLength a + 1 + byteLength b⟩⟩ := by
  obtain ⟨ps, hitemsA, hps, -⟩ := exists_derivation ha
  obtain ⟨qs, hitemsB, hqs, -⟩ := exists_derivation hb
  have hmoved : phraseNodes? (phrasesRespan (Span.later (byteLength a + 1)) qs) =
      some (sb.elements.map (Node.later (byteLength a + 1))) := by
    rw [phraseNodes?_respan (Span.steady_later _), hqs, Option.map_some, elementsRespan_eq_map]
    rfl
  rw [read_of_items (items_append hitemsA hitemsB), mapError_eq_ok, finish_run_iff]
  refine ⟨ps ++ phrasesRespan (Span.later (byteLength a + 1)) qs, ?_, ?_, ?_⟩
  · rw [phraseLexemes_append, phraseLexemes_respan]
    rfl
  · exact phraseNodes?_append hps hmoved
  · rw [byteLength_append, Nat.add_assoc]
    rfl

end

/-! ## Playing -/

section

variable {c : Setting} {start beat : Ratio} {f : Span → Span}

theorem playElements_append (cursor : Ratio) (ns ms : List Node) :
    playElements c cursor beat (ns ++ ms) = do
      let p ← playElements c cursor beat ns
      let q ← playElements c p.time beat ms
      return ⟨p.events ++ q.events, q.time⟩ := by
  induction ns generalizing cursor with
  | nil =>
    rw [playElements, List.nil_append, pure_bind]
    exact (bind_pure _).symm
  | cons n ns ih =>
    rw [List.cons_append, playElements, playElements]
    simp only [bind_assoc, pure_bind, ih, List.append_assoc]

mutual

theorem Node.bare_respan (f : Span → Span) : ∀ n : Node, (n.respan f).bare = n.bare
  | .sequence s => by rw [Node.respan, Node.bare, Node.bare, Sequence.bare_respan f s]
  | .group elements factor span => by
    rw [Node.respan, Node.bare, Node.bare, bareElements_respan f elements]
  | .parallel voices factor span => by
    rw [Node.respan, Node.bare, Node.bare, bareVoices_respan f voices]
  | .note n => rfl
  | .rest r => rfl

theorem Sequence.bare_respan (f : Span → Span) : ∀ s : Sequence, (s.respan f).bare = s.bare
  | ⟨elements, span⟩ => by
    rw [Sequence.respan, Sequence.bare, Sequence.bare, bareElements_respan f elements]

theorem bareElements_respan (f : Span → Span) :
    ∀ ns : List Node, bareElements (elementsRespan f ns) = bareElements ns
  | [] => rfl
  | n :: ns => by
    rw [elementsRespan, bareElements, bareElements, Node.bare_respan f n, bareElements_respan f ns]

theorem bareVoices_respan (f : Span → Span) :
    ∀ ss : List Sequence, bareVoices (voicesRespan f ss) = bareVoices ss
  | [] => rfl
  | s :: ss => by
    rw [voicesRespan, bareVoices, bareVoices, Sequence.bare_respan f s, bareVoices_respan f ss]

end

/-- Elements play the same wherever they stand. -/
theorem playElements_respan {cursor : Ratio} {ns : List Node} {p : Passage}
    (h : playElements c cursor beat ns = .ok p) (f : Span → Span) :
    playElements c cursor beat (ns.map (Node.respan f)) = .ok p := by
  rw [← elementsRespan_eq_map, ← mapError_eq_ok (f := DecodeFault.bare), ← playElements_bare,
    bareElements_respan, playElements_bare, mapError_eq_ok]
  exact h

theorem playSequence_of_playElements {ns : List Node} {q : Passage}
    (h : playElements c start beat ns = .ok q) (span : Span) :
    playSequence c start beat ⟨ns, span⟩ =
      (inTime span (q.time.sub? start)).map (Passage.mk q.events) := by
  rw [playSequence, h]
  show (do let t ← inTime span (q.time.sub? start); return Passage.mk q.events t) = _
  cases inTime span (q.time.sub? start) <;> rfl

theorem decodeNode_sequence {ns : List Node} {span : Span} {p : Passage} :
    decodeNode c start (.sequence ⟨ns, span⟩) = .ok p ↔
      ∃ q, playElements c start c.defaults.beat ns = .ok q ∧ q.time.sub? start = some p.time ∧
        p.events = sortByStart q.events := by
  constructor
  · intro h
    obtain ⟨r, hr, rfl⟩ := bind_pure_eq_ok h
    rw [playNode, playSequence] at hr
    obtain ⟨q, hq, hr⟩ := bind_eq_ok hr
    obtain ⟨time, htime, rfl⟩ := bind_pure_eq_ok hr
    exact ⟨q, hq, inTime_eq_ok htime, rfl⟩
  · rintro ⟨q, hq, htime, hevents⟩
    obtain ⟨events, time⟩ := p
    cases hevents
    rw [decodeNode, playNode, playSequence_of_playElements hq, htime]
    rfl

/-- What follows elements plays from where they end. -/
theorem playElements_join {ns ms : List Node} {p q : Passage}
    (hp : playElements c start beat ns = .ok p) (hq : playElements c p.time beat ms = .ok q)
    (f : Span → Span) : playElements c start beat (ns ++ ms.map (Node.respan f)) =
      .ok ⟨p.events ++ q.events, q.time⟩ := by
  rw [playElements_append, hp]
  show (do let r ← playElements c p.time beat _; _) = _
  rw [playElements_respan hq f]
  rfl

end

/-! ## Sorting -/

/-- A list is cut in one place where a test begins to succeed and goes on so. -/
theorem cut_unique {α : Type} {p : α → Bool} {xs ys xs' ys' : List α}
    (h : xs ++ ys = xs' ++ ys') (hxs : ∀ x ∈ xs, p x = false) (hys : ∀ y ∈ ys, p y = true)
    (hxs' : ∀ x ∈ xs', p x = false) (hys' : ∀ y ∈ ys', p y = true) : xs = xs' ∧ ys = ys' := by
  have hfilter : ∀ {us vs : List α}, (∀ u ∈ us, p u = false) → (∀ v ∈ vs, p v = true) →
      (us ++ vs).filter p = vs := by
    intro us vs hus hvs
    rw [List.filter_append, List.filter_eq_self.2 hvs,
      List.filter_eq_nil_iff.2 fun u hu => ne_true_of_eq_false (hus u hu), List.nil_append]
  have hsame : ys = ys' := by rw [← hfilter hxs hys, h, hfilter hxs' hys']
  exact ⟨List.append_cancel_right (hsame ▸ h), hsame⟩

theorem mergeSort_append {α : Type} {le : α → α → Bool}
    (trans : ∀ a b c, le a b → le b c → le a c) (total : ∀ a b, le a b || le b a)
    {as bs : List α} (h : ∀ a ∈ as, ∀ b ∈ bs, le a b = true) :
    (as ++ bs).mergeSort le = as.mergeSort le ++ bs.mergeSort le := by
  induction as with
  | nil => rw [List.mergeSort_nil, List.nil_append, List.nil_append]
  | cons a as ih =>
    obtain ⟨ha, has⟩ := List.forall_mem_cons.1 h
    -- the first of all goes before the first of the rest that it may not stand behind
    obtain ⟨xs, ys, hxs, hxys, hbefore⟩ := List.mergeSort_cons trans total a (as ++ bs)
    obtain ⟨us, vs, hus, huvs, hbefore'⟩ := List.mergeSort_cons trans total a as
    have hbehind : ∀ {zs ws rest : List α}, (a :: rest).mergeSort le = zs ++ a :: ws →
        ∀ w ∈ ws, le a w = true := by
      intro zs ws rest hsort w hw
      have hsorted := List.pairwise_mergeSort trans total (a :: rest)
      rw [hsort, List.pairwise_append] at hsorted
      exact List.rel_of_pairwise_cons hsorted.2.1 hw
    have hcut : xs ++ ys = us ++ (vs ++ bs.mergeSort le) := by
      rw [← hxys, ih has, huvs, List.append_assoc]
    obtain ⟨rfl, rfl⟩ := cut_unique (p := le a) hcut
      (fun x hx => by simpa using hbefore x hx) (hbehind hxs)
      (fun u hu => by simpa using hbefore' u hu) fun y hy => by
        rcases List.mem_append.1 hy with hy | hy
        · exact hbehind hus y hy
        · exact ha y (List.mem_mergeSort.1 hy)
    rw [List.cons_append, hxs, hus, List.append_assoc, List.cons_append]

theorem start_le_trans (a b c : Event) :
    decide (a.start ≤ b.start) → decide (b.start ≤ c.start) → decide (a.start ≤ c.start) := by
  simp only [decide_eq_true_eq, ← Ratio.toRat_le_toRat]
  exact le_trans

theorem start_le_total (a b : Event) :
    (decide (a.start ≤ b.start) || decide (b.start ≤ a.start)) = true := by
  simp only [Bool.or_eq_true, decide_eq_true_eq, ← Ratio.toRat_le_toRat]
  exact le_total _ _

theorem pairwise_sortByStart (events : List Event) :
    (sortByStart events).Pairwise fun a b => a.start ≤ b.start :=
  (List.pairwise_mergeSort start_le_trans start_le_total events).imp of_decide_eq_true

/-- What is played in order is decoded as it is played. -/
theorem decode_of_sorted {c : Setting} {start : Ratio} {s : Sequence} {p : Passage}
    (h : playSequence c start c.defaults.beat s = .ok p)
    (hsorted : p.events.Pairwise fun a b => a.start ≤ b.start) : decode c start s = .ok p.events := by
  rw [decode_of_play h, sortByStart, List.mergeSort_of_pairwise (hsorted.imp decide_eq_true)]

theorem pairwise_decode {c : Setting} {start : Ratio} {s : Sequence} {events : List Event}
    (h : decode c start s = .ok events) : events.Pairwise fun a b => a.start ≤ b.start := by
  obtain ⟨p, -, rfl⟩ := bind_pure_eq_ok h
  exact pairwise_sortByStart p.events

theorem sortByStart_append {as bs : List Event} (h : ∀ a ∈ as, ∀ b ∈ bs, a.start ≤ b.start) :
    sortByStart (as ++ bs) = sortByStart as ++ sortByStart bs :=
  mergeSort_append start_le_trans start_le_total fun a ha b hb => decide_eq_true (h a ha b hb)

/-! ## Both -/

/-- What elements play starts between the moment they begin and the moment they end. -/
theorem playElements_between {c : Setting} {start beat : Ratio} {ns : List Node} {p : Passage}
    (hns : ∀ n ∈ ns, n.Nonneg) (hbeat : 0 ≤ beat) (h : playElements c start beat ns = .ok p)
    {e : Event} (he : e ∈ p.events) : start ≤ e.start ∧ e.start ≤ p.time := by
  obtain ⟨hevents, htime⟩ := playElements_exact h
  obtain ⟨x, hx, hplays⟩ := exists_stroke hevents he
  have hb := Ratio.toRat_nonneg.2 hbeat
  have hforward := renderElements_forward (fun n hn => (hns n hn).forward) start.toRat hb
  have hwithin := renderElements_within hns (fun n hn => (hns n hn).within) start.toRat hb x hx
  obtain ⟨hstart, hduration⟩ := hforward.strokes x hx
  rw [← Ratio.toRat_le_toRat, ← Ratio.toRat_le_toRat, hplays.start, htime]
  exact ⟨hstart, (le_add_of_nonneg_right hduration).trans hwithin⟩

/-- Sources joined by a new line are read as one after the other, and decode so.  The elements are
those of the first and those of the second, moved; the events, wherever the first two decodings
succeed and the time of both can be held, are those of the first and, from where these end, those
of the second. -/
theorem read_join {a b : List Char} {sa sb : Sequence} (ha : read a = .ok sa) (hb : read b = .ok sb) :
    ∃ s, read (a ++ '\n' :: b) = .ok s ∧
      s.elements = sa.elements ++ sb.elements.map (Node.later (byteLength a + 1)) ∧
      s.span = ⟨0, byteLength a + 1 + byteLength b⟩ ∧
      ∀ (c : Setting) (start : Ratio), 0 ≤ c.defaults.beat →
        ∀ p, decodeNode c start (.sequence sa) = .ok p →
          decode c start sa = .ok p.events ∧
          ∃ next, start.add? p.time = some next ∧
            ∀ q, decodeNode c next (.sequence sb) = .ok q →
              decode c next sb = .ok q.events ∧
              decode c start s = (do
                let _ ← inTime s.span (p.time.add? q.time)
                return p.events ++ q.events) := by
  refine ⟨_, read_append ha hb, rfl, rfl, fun c start hbeat p hp => ?_⟩
  refine ⟨by rw [decode_eq, hp]; rfl, ?_⟩
  obtain ⟨ns, spanA⟩ := sa
  obtain ⟨ms, spanB⟩ := sb
  obtain ⟨u, hu, hutime, hpevents⟩ := decodeNode_sequence.1 hp
  have hpsub := Ratio.sub?_eq_some_iff.1 hutime
  refine ⟨u.time, Ratio.add?_eq_some_iff.2 (by rw [hpsub, add_sub_cancel]), fun q hq => ?_⟩
  refine ⟨by rw [decode_eq, hq]; rfl, ?_⟩
  obtain ⟨v, hv, hvtime, hqevents⟩ := decodeNode_sequence.1 hq
  have hqsub := Ratio.sub?_eq_some_iff.1 hvtime
  have hnonneg : ∀ {cs : List Char} {s : Sequence}, read cs = .ok s → ∀ n ∈ s.elements, n.Nonneg :=
    fun h n hn => (spelt_of_read h n hn).nonneg
  have hsorted : sortByStart (u.events ++ v.events) = p.events ++ q.events := by
    rw [hpevents, hqevents]
    refine sortByStart_append fun e he e' he' => ?_
    have hended := (playElements_between (hnonneg ha) hbeat hu he).2
    have hbegun := (playElements_between (hnonneg hb) hbeat hv he').1
    rw [← Ratio.toRat_le_toRat] at *
    exact hended.trans hbegun
  have hplays : playElements c start c.defaults.beat
      (ns ++ ms.map (Node.later (byteLength a + 1))) = .ok ⟨u.events ++ v.events, v.time⟩ :=
    playElements_join hu hv _
  have htimes : v.time.sub? start = p.time.add? q.time := by
    refine Option.ext fun t => ?_
    rw [Ratio.sub?_eq_some_iff, Ratio.add?_eq_some_iff, hpsub, hqsub, add_comm (_ - _),
      sub_add_sub_cancel]
  rw [decode, playSequence_of_playElements hplays, htimes, ← hsorted]
  cases p.time.add? q.time <;> rfl

/-- A comment that only the new line ends, and voices of unequal length before it. -/
theorem read_join_commented : ∃ sa sb s p q next,
    read "0 [C@2, 4. 5] // é".toList = .ok sa ∧ read "(1 2)/2 ~".toList = .ok sb ∧
    read ("0 [C@2, 4. 5] // é".toList ++ '\n' :: "(1 2)/2 ~".toList) = .ok s ∧
    s.elements = sa.elements ++ sb.elements.map (Node.later 20) ∧
    decodeNode plainSetting 0 (.sequence sa) = .ok p ∧ Ratio.add? 0 p.time = some next ∧
    decodeNode plainSetting next (.sequence sb) = .ok q ∧
    decode plainSetting 0 s = .ok (p.events ++ q.events) ∧
    p.events.length = 4 ∧ q.events.length = 2 := by
  have hplays : ((read "0 [C@2, 4. 5] // é".toList).toOption.bind fun sa =>
      (read "(1 2)/2 ~".toList).toOption.bind fun sb =>
      (playNode plainSetting 0 1 (.sequence sa)).toOption.bind fun u =>
      (Ratio.add? 0 u.time).bind fun next =>
      (playNode plainSetting next 1 (.sequence sb)).toOption.bind fun v =>
      (u.time.add? v.time).map fun _ => (u.events.length, v.events.length)) = some (4, 2) := by
    decide +kernel
  obtain ⟨sa, hsa, hplays⟩ := Option.bind_eq_some_iff.1 hplays
  obtain ⟨sb, hsb, hplays⟩ := Option.bind_eq_some_iff.1 hplays
  obtain ⟨u, hu, hplays⟩ := Option.bind_eq_some_iff.1 hplays
  obtain ⟨next, hnext, hplays⟩ := Option.bind_eq_some_iff.1 hplays
  obtain ⟨v, hv, hplays⟩ := Option.bind_eq_some_iff.1 hplays
  obtain ⟨total, htotal, hlengths⟩ := Option.map_eq_some_iff.1 hplays
  obtain ⟨hulength, hvlength⟩ := Prod.mk.inj hlengths
  rw [toOption_eq_some] at hsa hsb hu hv
  have hp : decodeNode plainSetting 0 (.sequence sa) = .ok ⟨sortByStart u.events, u.time⟩ := by
    show (playNode plainSetting 0 1 (.sequence sa) >>= _) = _
    rw [hu]
    rfl
  have hq : decodeNode plainSetting next (.sequence sb) = .ok ⟨sortByStart v.events, v.time⟩ := by
    show (playNode plainSetting next 1 (.sequence sb) >>= _) = _
    rw [hv]
    rfl
  obtain ⟨s, hs, helements, -, hdecodes⟩ := read_join hsa hsb
  obtain ⟨-, next', hnext', hjoined⟩ := hdecodes plainSetting 0 (by decide) _ hp
  obtain rfl := Option.some.inj (hnext.symm.trans hnext')
  obtain ⟨-, hdecode⟩ := hjoined _ hq
  rw [htotal] at hdecode
  refine ⟨sa, sb, s, _, _, next, hsa, hsb, hs, helements, hp, hnext, hq, hdecode, ?_, ?_⟩
  · rw [sortByStart, List.length_mergeSort, hulength]
  · rw [sortByStart, List.length_mergeSort, hvlength]

end Stave.Score
