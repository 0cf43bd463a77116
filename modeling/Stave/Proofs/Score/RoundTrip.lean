import Stave.Proofs.Score.Bare
import Stave.Proofs.Score.Reread

/-!
# Printing and reading again

The reader takes the words of a printed score and arrives at the same score, spans apart, so
printing loses nothing that a source can say.

    (∀ n ∈ s.elements, n.Spelt) → Reads s.words s.elements                      (Sequence.reads)
    read source = .ok s → ∃ s', read s.text.toList = .ok s' ∧ s'.bare = s.bare  (read_print)
-/

namespace Stave.Score

open Stave.Text

/-- Lexemes with these words add these elements, spans apart, to a reading at rest. -/
def Reads (ws : List Word) (ns : List Node) : Prop :=
  ∀ (r r0 : Reading) (ls : List Lexeme), r.Rests r0 → ls.map Lexeme.word = ws →
    ∃ r' new, r.run ls = .ok r' ∧ r'.Rests { r0 with here := new ++ r0.here } ∧
      new.map Node.bare = (ns.map Node.bare).reverse

theorem Reads.nil : Reads [] [] := by
  intro r r0 ls hr hls
  rw [List.map_eq_nil_iff] at hls
  subst hls
  exact ⟨r, [], rfl, hr, rfl⟩

theorem Reads.append {ws vs : List Word} {ns ms : List Node} (hw : Reads ws ns) (hv : Reads vs ms) :
    Reads (ws ++ vs) (ns ++ ms) := by
  intro r r0 ls hr hls
  obtain ⟨l1, l2, rfl, h1, h2⟩ := List.map_eq_append_iff.1 hls
  obtain ⟨r1, new1, e1, hr1, b1⟩ := hw r r0 l1 hr h1
  obtain ⟨r2, new2, e2, hr2, b2⟩ := hv r1 _ l2 hr1 h2
  refine ⟨r2, new2 ++ new1, by rw [Reading.run_append e1, e2], ?_, ?_⟩
  · rw [List.append_assoc]
    exact hr2
  · rw [List.map_append, List.map_append, b1, b2, List.reverse_append]

/-! ## Elements -/

/-- Reading at rest, once a draft is complete. -/
theorem Draft.Bears.rests_draw {r : Reading} {d : Draft} {core : Core} {factor : Ratio} {shift : Int}
    {as : List Articulation} (h : d.Bears core factor shift as) (hr : r.phase = .between) {n : Node}
    (hn : ∀ span, (d.node factor span).bare = n.bare) :
    ∃ m, (r.at d).Rests { r with here := m :: r.here } ∧ m.bare = n.bare := by
  obtain ⟨span, hs⟩ := h.rests hr
  exact ⟨_, hs, hn span⟩

theorem Note.Spelt.reads {n : Note} (h : n.Spelt) : Reads n.words [.note n] := by
  intro r r0 ls hr hls
  rw [Note.words] at hls
  obtain ⟨l, ls, rfl, hl, hls⟩ := List.map_eq_cons_iff.1 hls
  obtain ⟨ls, ls3, rfl, hls, h3⟩ := List.map_eq_append_iff.1 hls
  obtain ⟨ls1, ls2, rfl, h1, h2⟩ := List.map_eq_append_iff.1 hls
  have hmark : l.token.isMark = false := by
    cases ht : n.tone <;> rw [ht] at hl <;> rw [(Lexeme.word_eq hl).1] <;> rfl
  have hstep := (hr.step hmark).trans (receive_tone h.tone hl)
  have hd : ({ core := .note n.tone, span := l.span } : Draft).Bears (.note n.tone) 1 0 [] :=
    ⟨rfl, rfl, rfl, rfl, rfl⟩
  obtain ⟨d1, e1, b1⟩ := run_durationWords (r := r0) h.duration hd h1
  obtain ⟨d2, e2, b2⟩ := run_shiftWords (r := r0) h2 b1 h.shift
  obtain ⟨d3, e3, b3⟩ := run_articulationWords (r := r0) h.articulations h3 b2
  obtain ⟨m, hm, hbare⟩ := b3.rests_draw hr.1 (n := .note n) fun span => by
    unfold Draft.node
    rw [b3.core, b3.shift, b3.articulations]
    rfl
  refine ⟨r0.at d3, [m], ?_, hm, by simp [hbare]⟩
  rw [Reading.run_cons hstep]
  show (r0.at _).run _ = _
  rw [Reading.run_append (Reading.run_append e1 _ |>.trans e2), e3]

theorem reads_rest {x : Rest} (h : 0 ≤ x.duration) :
    Reads (Token.rest.word :: durationWords x.duration) [.rest x] := by
  intro r r0 ls hr hls
  obtain ⟨l, ls, rfl, hl, hls⟩ := List.map_eq_cons_iff.1 hls
  have ht := (Lexeme.word_eq hl).1
  have hstep : r.step l = .ok (r0.draw .rest l.span) := by
    rw [hr.step (by rw [ht]; rfl), Reading.receive, ht]
  have hd : ({ core := .rest, span := l.span } : Draft).Bears .rest 1 0 [] := ⟨rfl, rfl, rfl, rfl, rfl⟩
  obtain ⟨d, e, b⟩ := run_durationWords (r := r0) h hd hls
  obtain ⟨m, hm, hbare⟩ := b.rests_draw hr.1 (n := .rest x) fun span => by
    unfold Draft.node
    rw [b.core]
    rfl
  exact ⟨r0.at d, [m], by rw [Reading.run_cons hstep]; exact e, hm, by simp [hbare]⟩

theorem reads_elements {ns : List Node} (h : ∀ n ∈ ns, Reads n.words [n]) :
    Reads (elementWords ns) ns := by
  induction ns with
  | nil => exact .nil
  | cons n ns ih =>
    have hn := h n List.mem_cons_self
    exact hn.append (ih fun m hm => h m (List.mem_cons_of_mem _ hm))

/-! ## Brackets -/

theorem exists_reverse_of_bare {new ns : List Node}
    (h : new.map Node.bare = (ns.map Node.bare).reverse) (hne : ns ≠ []) : ∃ first others,
      new = (first :: others).reverse ∧ (first :: others).map Node.bare = ns.map Node.bare := by
  have hreverse : new.reverse.map Node.bare = ns.map Node.bare := by
    rw [List.map_reverse, h, List.reverse_reverse]
  cases hn : new.reverse with
  | nil =>
    rw [hn, eq_comm, List.map_nil, List.map_eq_nil_iff] at hreverse
    exact absurd hreverse hne
  | cons first others =>
    rw [hn] at hreverse
    exact ⟨first, others, by rw [← hn, List.reverse_reverse], hreverse⟩

/-- The marks after a closed bracket, which hold nothing but a duration. -/
theorem reads_closed {r r0 : Reading} {core : Core} {span : Span} {factor : Ratio} {ls : List Lexeme}
    {n : Node} (hr : r = r0.draw core span) (h0 : r0.phase = .between) (hf : 0 ≤ factor)
    (hls : ls.map Lexeme.word = durationWords factor)
    (hn : ∀ d : Draft, d.core = core → ∀ span, (d.node factor span).bare = n.bare) :
    ∃ r' m, r.run ls = .ok r' ∧ r'.Rests { r0 with here := m :: r0.here } ∧ m.bare = n.bare := by
  subst hr
  have hd : ({ core, span } : Draft).Bears core 1 0 [] := ⟨rfl, rfl, rfl, rfl, rfl⟩
  obtain ⟨d, e, b⟩ := run_durationWords (r := r0) hf hd hls
  obtain ⟨m, hm, hbare⟩ := b.rests_draw h0 (hn d b.core)
  exact ⟨r0.at d, m, e, hm, hbare⟩

theorem reads_group {elements : List Node} {factor : Ratio} {span : Span} (hne : elements ≠ [])
    (h : Reads (elementWords elements) elements) (hf : 0 ≤ factor) :
    Reads (Node.group elements factor span).words [.group elements factor span] := by
  intro r r0 ls hr hls
  rw [Node.words, List.cons_append] at hls
  obtain ⟨l, ls, rfl, hl, hls⟩ := List.map_eq_cons_iff.1 hls
  obtain ⟨ls1, ls2, rfl, h1, hls⟩ := List.map_eq_append_iff.1 hls
  obtain ⟨k, ls2, rfl, hk, h2⟩ := List.map_eq_cons_iff.1 hls
  have hopen := hr.open_step.1 (Lexeme.word_eq hl).1
  obtain ⟨r1, new, e1, hr1, b1⟩ := h _ _ ls1 (r0.rests_inside .group l.span []) h1
  rw [show (r0.inside .group l.span []).here = [] from rfl, List.append_nil] at hr1
  obtain ⟨first, others, rfl, hb⟩ := exists_reverse_of_bare b1 hne
  have ht : k.token = .closeGroup := (Lexeme.word_eq hk).1
  have hclose := (hr1.step (by rw [ht]; rfl)).trans (receive_closeGroup ⟨k, ht⟩)
  have hnode : ∀ d : Draft, d.core = .group (first :: others) → ∀ place,
      (d.node factor place).bare = (Node.group elements factor span).bare := by
    intro d hd place
    unfold Draft.node
    rw [hd]
    simp only [Node.bare, bareElements_eq_map, hb]
  obtain ⟨r', m, e2, hm, hbare⟩ := reads_closed rfl hr.1 hf h2 hnode
  refine ⟨r', [m], ?_, hm, by simp [hbare]⟩
  rw [Reading.run_cons hopen, Reading.run_append e1, Reading.run_cons hclose, e2]

theorem voice_bare {first : Node} {others : List Node} {s : Sequence}
    (h : (first :: others).map Node.bare = s.elements.map Node.bare) :
    (voice first others).bare = s.bare := by
  obtain ⟨elements, span⟩ := s
  simp only [voice, Sequence.bare, bareElements_eq_map, h]

/-- The voices of a block, the last of them still open. -/
theorem run_voiceWords {r0 : Reading} {opened : Span} {ss : List Sequence} (hss : ss ≠ [])
    (hne : ∀ s ∈ ss, s.elements ≠ []) (h : ∀ s ∈ ss, Reads s.words s.elements)
    {r : Reading} {vs : List Sequence} (hr : r.Rests (r0.inside (.parallel vs) opened []))
    {ls : List Lexeme} (hls : ls.map Lexeme.word = voiceWords ss) :
    ∃ r' vs' first others, r.run ls = .ok r' ∧
      r'.Rests (r0.inside (.parallel vs') opened (first :: others).reverse) ∧
      (voice first others :: vs').map Sequence.bare =
        (ss.map Sequence.bare).reverse ++ vs.map Sequence.bare := by
  induction ss generalizing r vs ls with
  | nil => exact absurd rfl hss
  | cons s ss ih =>
    obtain ⟨hs, hne'⟩ := List.forall_mem_cons.1 hne
    obtain ⟨hw, h'⟩ := List.forall_mem_cons.1 h
    cases ss with
    | nil =>
      obtain ⟨r1, new, e1, hr1, b1⟩ := hw _ _ ls hr hls
      rw [show (r0.inside (.parallel vs) opened []).here = [] from rfl, List.append_nil] at hr1
      obtain ⟨first, others, rfl, hb⟩ := exists_reverse_of_bare b1 hs
      exact ⟨r1, vs, first, others, e1, hr1, by simp [voice_bare hb]⟩
    | cons t ss =>
      rw [voiceWords] at hls
      obtain ⟨ls1, ls2, rfl, h1, hls⟩ := List.map_eq_append_iff.1 hls
      obtain ⟨k, ls2, rfl, hk, h2⟩ := List.map_eq_cons_iff.1 hls
      obtain ⟨r1, new, e1, hr1, b1⟩ := hw _ _ ls1 hr h1
      rw [show (r0.inside (.parallel vs) opened []).here = [] from rfl, List.append_nil] at hr1
      obtain ⟨first, others, rfl, hb⟩ := exists_reverse_of_bare b1 hs
      have ht : k.token = .comma := (Lexeme.word_eq hk).1
      have hcomma := (hr1.step (by rw [ht]; rfl)).trans (receive_comma ⟨k, ht⟩)
      obtain ⟨r', vs', last, rest, e2, hr', hb'⟩ := ih (by simp) hne' h' (r0.rests_inside _ opened []) h2
      refine ⟨r', vs', last, rest, ?_, hr', ?_⟩
      · rw [Reading.run_append e1, Reading.run_cons hcomma, e2]
      · rw [hb']
        simp [voice_bare hb]

theorem reads_parallel {voices : List Sequence} {factor : Ratio} {span : Span} (hss : voices ≠ [])
    (hne : ∀ s ∈ voices, s.elements ≠ []) (h : ∀ s ∈ voices, Reads s.words s.elements)
    (hf : 0 ≤ factor) :
    Reads (Node.parallel voices factor span).words [.parallel voices factor span] := by
  intro r r0 ls hr hls
  rw [Node.words, List.cons_append] at hls
  obtain ⟨l, ls, rfl, hl, hls⟩ := List.map_eq_cons_iff.1 hls
  obtain ⟨ls1, ls2, rfl, h1, hls⟩ := List.map_eq_append_iff.1 hls
  obtain ⟨k, ls2, rfl, hk, h2⟩ := List.map_eq_cons_iff.1 hls
  have hopen := hr.open_step.2 (Lexeme.word_eq hl).1
  obtain ⟨r1, vs, first, others, e1, hr1, b1⟩ :=
    run_voiceWords hss hne h (r0.rests_inside (.parallel []) l.span []) h1
  rw [List.map_nil, List.append_nil] at b1
  have ht : k.token = .closeParallel := (Lexeme.word_eq hk).1
  have hclose := (hr1.step (by rw [ht]; rfl)).trans (receive_closeParallel ⟨k, ht⟩)
  have hb : (voice first others :: vs).reverse.map Sequence.bare = voices.map Sequence.bare := by
    rw [List.map_reverse, b1, List.reverse_reverse]
  have hnode : ∀ d : Draft, d.core = .parallel (voice first others :: vs).reverse → ∀ place,
      (d.node factor place).bare = (Node.parallel voices factor span).bare := by
    intro d hd place
    unfold Draft.node
    rw [hd]
    simp only [Node.bare, bareVoices_eq_map, hb]
  obtain ⟨r', m, e2, hm, hbare⟩ := reads_closed rfl hr.1 hf h2 hnode
  refine ⟨r', [m], ?_, hm, by simp [hbare]⟩
  rw [Reading.run_cons hopen, Reading.run_append e1, Reading.run_cons hclose, e2]

/-! ## Scores -/

theorem Node.Spelt.reads {n : Node} (h : n.Spelt) : Reads n.words [n] := by
  induction h with
  | note h => exact h.reads
  | rest h => exact reads_rest h
  | group some each h ih => exact reads_group some (reads_elements ih) h
  | parallel some someEach each h ih =>
    refine reads_parallel some someEach (fun s hs => ?_) h
    have helements := reads_elements (ih s hs)
    obtain ⟨elements, span⟩ := s
    exact helements

theorem Sequence.reads {s : Sequence} (h : ∀ n ∈ s.elements, n.Spelt) : Reads s.words s.elements := by
  have helements := reads_elements fun n hn => (h n hn).reads
  obtain ⟨elements, span⟩ := s
  exact helements

theorem read_text_of_spelt {s : Sequence} (h : ∀ n ∈ s.elements, n.Spelt) :
    ∃ s', read s.text.toList = .ok s' ∧ s'.bare = s.bare := by
  obtain ⟨ls, hls, hitems⟩ := Sequence.cuts_text h [] (by simp [Stops]) 0
  obtain ⟨r, new, hrun, hr, hbare⟩ := Sequence.reads h {} {} ls ⟨rfl, .inl rfl⟩ hls
  have hitems' : items s.text.toList = ls.map .ok := by
    have hempty : itemsFrom (0 + byteLength s.text.toList) [] = [] := by
      rw [itemsFrom, segments]
      rfl
    rw [List.append_nil, hempty, List.append_nil] at hitems
    exact hitems
  refine ⟨⟨new.reverse, ⟨0, byteLength s.text.toList⟩⟩, ?_, ?_⟩
  · unfold read
    rw [hitems', foldlM_take, hrun]
    show Except.mapError Fault.read (r.finish _) = _
    rw [hr.finish]
    show Except.ok (Sequence.mk (new ++ []).reverse _) = _
    rw [List.append_nil]
  · obtain ⟨elements, span⟩ := s
    simp only [Sequence.bare, bareElements_eq_map, List.map_reverse, hbare, List.reverse_reverse]

/-- Whatever a source says survives printing: the printed text is read as the same score, spans
apart, so it prints, lasts and sounds the same. -/
theorem read_print {source : List Char} {s : Sequence} (h : read source = .ok s) :
    ∃ s', read s.text.toList = .ok s' ∧ s'.bare = s.bare ∧ s'.text = s.text ∧
      s'.length? = s.length? ∧
      ∀ (c : Setting) (start : Ratio), (decode c start s').mapError DecodeFault.bare =
        (decode c start s).mapError DecodeFault.bare := by
  obtain ⟨s', hread, hbare⟩ := read_text_of_spelt (spelt_of_read h)
  refine ⟨s', hread, hbare, ?_, ?_, fun c start => ?_⟩
  · rw [← Sequence.text_bare, hbare, Sequence.text_bare]
  · rw [← Sequence.length?_bare, hbare, Sequence.length?_bare]
  · rw [← decode_bare, hbare, decode_bare]

theorem read_print_nested :
    ∃ s s', read "(0 C#4.@3  [Eb/3^!, ~.] ) /2 // two".toList = .ok s ∧
      s.text = "(0 C#4@9/2 [Eb/3^!, ~@3/2])/2" ∧
      read "(0 C#4@9/2 [Eb/3^!, ~@3/2])/2".toList = .ok s' ∧ s'.bare = s.bare := by
  have htext : (read "(0 C#4.@3  [Eb/3^!, ~.] ) /2 // two".toList).map Sequence.text =
      .ok "(0 C#4@9/2 [Eb/3^!, ~@3/2])/2" := by decide +kernel
  cases h : read "(0 C#4.@3  [Eb/3^!, ~.] ) /2 // two".toList with
  | error e =>
    rw [h] at htext
    cases htext
  | ok s =>
    rw [h] at htext
    have ht : s.text = "(0 C#4@9/2 [Eb/3^!, ~@3/2])/2" := Except.ok.inj htext
    obtain ⟨s', hread, hbare, -⟩ := read_print h
    rw [ht] at hread
    exact ⟨s, s', rfl, ht, hread, hbare⟩
end Stave.Score
