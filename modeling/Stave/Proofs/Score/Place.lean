import Stave.Proofs.Score.Derive
import Stave.Proofs.Score.Origin

/-!
# Where the nodes of a score stand

Each node of a score, however deep, is what some lexemes of its source mean, and its span reaches
from the first byte of the first of them to the last byte of the last.  So the text under the span
of a node spells that node and nothing else, and nodes lie inside each other and behind each other
as their lexemes do.

    p.node? = some n → n.span reaches over p.lexemes                      (Phrase.reaches)
    n stands among ls → m is a part of n → m stands among ls              (Stands.part)
    s reaches over ls → items (s.text source) = ls, counted from s.start  (items_stretch)
    read source = .ok s → every node at any depth of s is in its place    (spans_faithful)
-/

namespace Stave.Score

open Stave.Text

/-! ## Stretches of lexemes -/

/-- Lexemes one after another, as a source has them. -/
structure InOrder (ls : List Lexeme) : Prop where
  filled : ∀ l ∈ ls, l.span.start < l.span.stop
  apart : ls.Pairwise fun a b => a.span.stop ≤ b.span.start

/-- A span that reaches from the start of the first lexeme to the end of the last. -/
structure Span.Reaches (s : Span) (ls : List Lexeme) : Prop where
  first : ∃ l ∈ ls.head?, s.start = l.span.start
  last : ∃ l ∈ ls.getLast?, s.stop = l.span.stop

/-- A span with others inside it, none of them empty, each behind the one before. -/
structure Span.Encloses (s : Span) (inner : List Span) : Prop where
  inside : ∀ t ∈ inner, s.start ≤ t.start ∧ t.stop ≤ s.stop
  filled : ∀ t ∈ inner, t.start < t.stop
  apart : inner.Pairwise fun a b => a.stop ≤ b.start

/-- Spans that reach over stretches of some lexemes, each stretch behind the one before. -/
inductive Laid : List Span → List Lexeme → Prop
  | nil (ls : List Lexeme) : Laid [] ls
  | skip {spans : List Span} {ls : List Lexeme} (l : Lexeme) (h : Laid spans ls) : Laid spans (l :: ls)
  | cons {s : Span} {spans : List Span} {ls ms : List Lexeme} (hs : s.Reaches ls)
      (h : Laid spans ms) : Laid (s :: spans) (ls ++ ms)

section

variable {ls ms all : List Lexeme} {s t : Span} {spans : List Span} {l : Lexeme}

theorem InOrder.sublist (h : InOrder ls) (hm : ms.Sublist ls) : InOrder ms :=
  ⟨fun l hl => h.filled l (hm.subset hl), h.apart.sublist hm⟩

theorem InOrder.left (h : InOrder (ls ++ ms)) : InOrder ls := h.sublist (List.sublist_append_left ls ms)

theorem InOrder.right (h : InOrder (ls ++ ms)) : InOrder ms := h.sublist (List.sublist_append_right ls ms)

/-- What comes before lexemes in order ends before they begin. -/
theorem InOrder.before (h : InOrder (ls ++ ms)) {a b : Lexeme} (ha : a ∈ ls) (hb : b ∈ ms) :
    a.span.stop ≤ b.span.start := (List.pairwise_append.1 h.apart).2.2 a ha b hb

namespace Span.Reaches

theorem single (l : Lexeme) : l.span.Reaches [l] := ⟨⟨l, rfl, rfl⟩, ⟨l, rfl, rfl⟩⟩

theorem contains (hs : s.Reaches ls) (h : InOrder ls) (hl : l ∈ ls) :
    s.start ≤ l.span.start ∧ l.span.stop ≤ s.stop := by
  obtain ⟨⟨f, hf, hstart⟩, ⟨g, hg, hstop⟩⟩ := hs
  constructor
  · obtain ⟨tail, rfl⟩ := List.head?_eq_some_iff.1 hf
    rcases List.mem_cons.1 hl with rfl | hl
    · exact hstart.le
    · have hfilled := h.filled f List.mem_cons_self
      have hapart := List.rel_of_pairwise_cons h.apart hl
      omega
  · obtain ⟨init, rfl⟩ := List.getLast?_eq_some_iff.1 hg
    rcases List.mem_append.1 hl with hl | hl
    · have hfilled := h.filled g (List.mem_append_right _ List.mem_cons_self)
      have hapart := h.before hl List.mem_cons_self
      omega
    · rw [List.mem_singleton.1 hl]
      exact hstop.ge

theorem filled (hs : s.Reaches ls) (h : InOrder ls) : s.start < s.stop := by
  obtain ⟨f, hf, hstart⟩ := hs.first
  have hfilled := h.filled f (List.mem_of_mem_head? hf)
  have hcontains := hs.contains h (List.mem_of_mem_head? hf)
  omega

/-- The span around the span of some first and the span of some last lexemes. -/
theorem merge (hs : s.Reaches ls) (ht : t.Reaches ms) (h : InOrder all) (hls : ls <+: all)
    (hms : ms <:+ all) : (s.merge t).Reaches all := by
  obtain ⟨⟨f, hf, hsf⟩, ⟨g, hg, hsg⟩⟩ := hs
  obtain ⟨⟨f', hf', htf⟩, ⟨g', hg', htg⟩⟩ := ht
  have hall : (Span.mk f.span.start g'.span.stop).Reaches all := by
    refine ⟨⟨f, ?_, rfl⟩, ⟨g', ?_, rfl⟩⟩
    · obtain ⟨rest, rfl⟩ := hls
      exact List.mem_head?_append_of_mem_head? hf
    · obtain ⟨init, rfl⟩ := hms
      exact List.mem_getLast?_append_of_mem_getLast? hg'
  have hstart := (hall.contains h (hms.mem (List.mem_of_mem_head? hf'))).1
  have hstop := (hall.contains h (hls.mem (List.mem_of_getLast? hg))).2
  have hmerge : s.merge t = ⟨f.span.start, g'.span.stop⟩ := by
    simp only [Span.merge, Span.mk.injEq]
    dsimp only at hstart hstop
    omega
  rwa [hmerge]

end Span.Reaches

/-- Spans over stretches of lexemes are inside what the lexemes are inside. -/
theorem Laid.encloses (h : Laid spans ls) (hls : InOrder ls)
    (hs : ∀ l ∈ ls, s.start ≤ l.span.start ∧ l.span.stop ≤ s.stop) : s.Encloses spans := by
  induction h generalizing s with
  | nil ls => exact ⟨nofun, nofun, .nil⟩
  | skip l h ih =>
    exact ih (hls.sublist (List.sublist_cons_self l _)) fun m hm => hs m (List.mem_cons_of_mem l hm)
  | @cons t spans ls ms ht h ih =>
    obtain ⟨⟨f, hf, hstart⟩, ⟨g, hg, hstop⟩⟩ := ht
    have hf' := hs f (List.mem_append_left ms (List.mem_of_mem_head? hf))
    have hg' := hs g (List.mem_append_left ms (List.mem_of_getLast? hg))
    have hin := ih hls.right fun l hl => hs l (List.mem_append_right ls hl)
    -- the spans behind this one are inside what is left of the outer one
    have hbehind : (Span.mk t.stop s.stop).Encloses spans := ih hls.right fun l hl =>
      ⟨hstop.trans_le (hls.before (List.mem_of_getLast? hg) hl), (hs l (List.mem_append_right ls hl)).2⟩
    refine ⟨List.forall_mem_cons.2 ⟨?_, hin.inside⟩, List.forall_mem_cons.2 ⟨?_, hin.filled⟩,
      List.pairwise_cons.2 ⟨fun u hu => (hbehind.inside u hu).1, hin.apart⟩⟩
    · rw [hstart, hstop]
      exact ⟨hf'.1, hg'.2⟩
    · exact Span.Reaches.filled ⟨⟨f, hf, hstart⟩, ⟨g, hg, hstop⟩⟩ hls.left

end

/-! ## Spans of derivations -/

theorem NoteMark.lexemes_last (m : NoteMark) : ∃ init, m.lexemes = init ++ [m.last] := by
  rcases m with (⟨kind, symbol, number⟩ | symbol) | ⟨kind, symbol⟩
  · exact ⟨[symbol.val], rfl⟩
  · exact ⟨[], rfl⟩
  · exact ⟨[], rfl⟩

theorem markedSpan_reaches {core : Span} {ls : List Lexeme} {marks : List NoteMark}
    (hcore : core.Reaches ls) (h : InOrder (ls ++ marks.flatMap NoteMark.lexemes)) :
    (markedSpan core marks).Reaches (ls ++ marks.flatMap NoteMark.lexemes) := by
  rcases List.eq_nil_or_concat marks with rfl | ⟨before, m, rfl⟩
  · rw [List.flatMap_nil, List.append_nil]
    exact hcore
  · obtain ⟨init, hinit⟩ := m.lexemes_last
    have hspan : markedSpan core (before.concat m) = core.merge m.last.span := by
      rw [markedSpan, List.concat_eq_append, List.getLast?_concat]
      rfl
    have hlast : [m.last] <:+ (before.concat m).flatMap NoteMark.lexemes := by
      rw [List.concat_eq_append, List.flatMap_append, List.flatMap_singleton, hinit, ← List.append_assoc]
      exact List.suffix_append _ _
    rw [hspan]
    exact hcore.merge (.single m.last) h (List.prefix_append _ _)
      (hlast.trans (List.suffix_append _ _))

theorem Block.reaches {b : Block} (h : InOrder b.lexemes) : b.span.Reaches b.lexemes := by
  cases b with
  | rest symbol =>
    rw [Block.lexemes]
    exact .single symbol.val
  | group opened first others closed =>
    rw [Block.lexemes] at h ⊢
    exact (Span.Reaches.single opened.val).merge (.single closed.val) h ⟨_, rfl⟩ ⟨opened.val :: _, rfl⟩
  | parallel opened voices closed =>
    rw [Block.lexemes] at h ⊢
    exact (Span.Reaches.single opened.val).merge (.single closed.val) h ⟨_, rfl⟩ ⟨opened.val :: _, rfl⟩

theorem Core.marked?_span {core : Core} {span : Span} {marks : List NoteMark} {n : Node}
    (h : core.marked? span marks = some n) : n.span = markedSpan span marks := by
  obtain ⟨factor, -, hn⟩ := Option.bind_eq_some_iff.1 h
  cases hn
  cases core <;> rfl

theorem Phrase.reaches {p : Phrase} {n : Node} (hp : p.node? = some n) (h : InOrder p.lexemes) :
    n.span.Reaches p.lexemes := by
  cases p with
  | tone word marks =>
    rw [Phrase.node?] at hp
    obtain ⟨tone, -, hn⟩ := Option.bind_eq_some_iff.1 hp
    rw [Phrase.lexemes] at h ⊢
    rw [Core.marked?_span hn]
    exact markedSpan_reaches (.single word.lexeme) h
  | block block marks =>
    rw [Phrase.node?] at hp
    obtain ⟨core, -, hn⟩ := Option.bind_eq_some_iff.1 hp
    rw [Phrase.lexemes, ← flatMap_time] at h ⊢
    rw [Core.marked?_span hn]
    exact markedSpan_reaches (Block.reaches h.left) h

section

variable {ps : List Phrase} {ns : List Node}

theorem phrases_laid (hps : phraseNodes? ps = some ns) (h : InOrder (phraseLexemes ps)) :
    Laid (ns.map Node.span) (phraseLexemes ps) := by
  induction ps generalizing ns with
  | nil =>
    rw [phraseNodes?_nil_eq_some.1 hps]
    exact .nil _
  | cons p ps ih =>
    obtain ⟨n, ns, hn, hns, rfl⟩ := phraseNodes?_cons_eq_some.1 hps
    rw [phraseLexemes] at h ⊢
    exact .cons (Phrase.reaches hn h.left) (ih hns h.right)

/-- The last element of a voice. -/
theorem voice_last {first : Phrase} {n : Node} (hn : first.node? = some n)
    (hps : phraseNodes? ps = some ns) :
    ∃ q : Phrase, q.node? = some (ns.getLastD n) ∧ q.lexemes <:+ first.lexemes ++ phraseLexemes ps := by
  induction ps generalizing first n ns with
  | nil =>
    rw [phraseNodes?_nil_eq_some.1 hps, phraseLexemes, List.append_nil]
    exact ⟨first, hn, List.suffix_rfl⟩
  | cons p ps ih =>
    obtain ⟨m, ms, hm, hms, rfl⟩ := phraseNodes?_cons_eq_some.1 hps
    obtain ⟨q, hq, hlast⟩ := ih hm hms
    rw [List.getLastD_cons, phraseLexemes]
    exact ⟨q, hq, hlast.trans (List.suffix_append _ _)⟩

theorem voice_reaches {first : Phrase} {n : Node} (hn : first.node? = some n)
    (hps : phraseNodes? ps = some ns) (h : InOrder (first.lexemes ++ phraseLexemes ps)) :
    (voice n ns).span.Reaches (first.lexemes ++ phraseLexemes ps) := by
  obtain ⟨q, hq, hlast⟩ := voice_last hn hps
  exact (Phrase.reaches hn h.left).merge (Phrase.reaches hq (h.sublist hlast.sublist)) h
    (List.prefix_append _ _) hlast

theorem voice_laid {first : Phrase} {n : Node} (hn : first.node? = some n)
    (hps : phraseNodes? ps = some ns) (h : InOrder (first.lexemes ++ phraseLexemes ps)) :
    Laid ((voice n ns).elements.map Node.span) (first.lexemes ++ phraseLexemes ps) :=
  .cons (Phrase.reaches hn h.left) (phrases_laid hps h.right)

/-- A voice encloses its elements. -/
theorem voice_encloses {first : Phrase} {n : Node} (hn : first.node? = some n)
    (hps : phraseNodes? ps = some ns) (h : InOrder (first.lexemes ++ phraseLexemes ps)) :
    (voice n ns).span.Encloses ((voice n ns).elements.map Node.span) :=
  (voice_laid hn hps h).encloses h fun _ hl => (voice_reaches hn hps h).contains h hl

end

/-- Voices are laid out one after another, and each encloses its elements. -/
theorem Voices.laid : ∀ {v : Voices} {ss : List Sequence}, v.sequences? = some ss →
    InOrder v.lexemes → Laid (ss.map Sequence.span) v.lexemes ∧
      ∀ s ∈ ss, s.span.Encloses (s.elements.map Node.span)
  | .last first others, ss, hv, h => by
    obtain ⟨n, ns, hn, hns, rfl⟩ := sequences?_last_eq_some.1 hv
    rw [Voices.lexemes] at h ⊢
    refine ⟨?_, List.forall_mem_singleton.2 (voice_encloses hn hns h)⟩
    have hlaid := Laid.cons (voice_reaches hn hns h) (.nil [])
    rwa [List.append_nil] at hlaid
  | .more first others comma rest, ss, hv, h => by
    obtain ⟨n, ns, ss, hn, hns, hss, rfl⟩ := sequences?_more_eq_some.1 hv
    rw [Voices.lexemes] at h ⊢
    have hrest := h.right.sublist (List.sublist_cons_self comma.val rest.lexemes)
    obtain ⟨hlaid, hvoices⟩ := Voices.laid hss hrest
    exact ⟨.cons (voice_reaches hn hns h.left) (.skip comma.val hlaid),
      List.forall_mem_cons.2 ⟨voice_encloses hn hns h.left, hvoices⟩⟩
termination_by structural v => v

/-! ## Nodes at any depth -/

/-- The elements directly inside a node. -/
def Node.parts : Node → List Node
  | .sequence s => s.elements
  | .group elements _ _ => elements
  | .parallel voices _ _ => voices.flatMap Sequence.elements
  | .note _ | .rest _ => []

/-- A node of a score, at any depth. -/
inductive Sequence.Has (s : Sequence) : Node → Prop
  | element {n : Node} (h : n ∈ s.elements) : Has s n
  | part {n m : Node} (h : Has s n) (hm : m ∈ n.parts) : Has s m

/-- The node that a path leads to, each number of it being a place among the parts. -/
def Node.at? : Node → List Nat → Option Node
  | n, [] => some n
  | n, i :: path => n.parts[i]?.bind fun m => m.at? path

theorem Sequence.Has.at? {s : Sequence} {n m : Node} {path : List Nat} (h : s.Has n)
    (hm : n.at? path = some m) : s.Has m := by
  induction path generalizing n with
  | nil =>
    cases hm
    exact h
  | cons i path ih =>
    obtain ⟨part, hpart, hm⟩ := Option.bind_eq_some_iff.1 hm
    exact ih (.part h (List.mem_of_getElem? hpart)) hm

/-- A path that ends somewhere in the score of a source ends at one of its nodes. -/
theorem exists_node_at {β : Type} {source : List Char} {i : Nat} {path : List Nat}
    {view : Sequence → Node → β} {b : β} (h : ((read source).toOption.bind fun s =>
      s.elements[i]?.bind fun n => (n.at? path).map (view s)) = some b) :
    ∃ s n, read source = .ok s ∧ s.Has n ∧ view s n = b := by
  obtain ⟨s, hs, h⟩ := Option.bind_eq_some_iff.1 h
  obtain ⟨m, hm, h⟩ := Option.bind_eq_some_iff.1 h
  obtain ⟨n, hn, hview⟩ := Option.map_eq_some_iff.1 h
  have hhas : s.Has m := .element (List.mem_of_getElem? hm)
  exact ⟨s, n, toOption_eq_some.1 hs, hhas.at? hn, hview⟩

/-- The node encloses its elements, or its voices and these theirs. -/
def Node.Nested : Node → Prop
  | .sequence s => s.span.Encloses (s.elements.map Node.span)
  | .group elements _ span => span.Encloses (elements.map Node.span)
  | .parallel voices _ span => span.Encloses (voices.map Sequence.span) ∧
      ∀ s ∈ voices, s.span.Encloses (s.elements.map Node.span)
  | .note _ | .rest _ => True

/-- Some of the lexemes, with all the marks that follow, mean the node. -/
def Node.Stands (n : Node) (ls : List Lexeme) : Prop :=
  ∃ (before : List Lexeme) (p : Phrase) (after : List Lexeme),
    ls = before ++ p.lexemes ++ after ∧ p.node? = some n ∧ Markless after

section

variable {p : Phrase} {n m : Node} {ps : List Phrase} {ns : List Node} {ls t : List Lexeme}

theorem Phrase.node?_cases (hp : p.node? = some n) :
    n.parts = [] ∧ n.Nested ∨
    (∃ opened first others closed marks m ms factor span,
      p = .block (.group opened first others closed) marks ∧ first.node? = some m ∧
      phraseNodes? others = some ms ∧ n = .group (m :: ms) factor span) ∨
    ∃ opened voices closed marks ss factor span,
      p = .block (.parallel opened voices closed) marks ∧ voices.sequences? = some ss ∧
      n = .parallel ss factor span := by
  cases p with
  | tone word marks =>
    rw [Phrase.node?] at hp
    obtain ⟨tone, -, hn⟩ := Option.bind_eq_some_iff.1 hp
    obtain ⟨factor, -, hn⟩ := Option.bind_eq_some_iff.1 hn
    cases hn
    exact .inl ⟨rfl, trivial⟩
  | block block marks =>
    rw [Phrase.node?] at hp
    obtain ⟨core, hcore, hn⟩ := Option.bind_eq_some_iff.1 hp
    obtain ⟨factor, -, hn⟩ := Option.bind_eq_some_iff.1 hn
    cases hn
    cases block with
    | rest symbol =>
      rw [Block.core?] at hcore
      cases hcore
      exact .inl ⟨rfl, trivial⟩
    | group opened first others closed =>
      obtain ⟨m, ms, hm, hms, rfl⟩ := core?_group_eq_some.1 hcore
      exact .inr (.inl ⟨_, _, _, _, _, _, _, _, _, rfl, hm, hms, rfl⟩)
    | parallel opened voices closed =>
      rw [Block.core?] at hcore
      obtain ⟨ss, hss, hcore⟩ := Option.bind_eq_some_iff.1 hcore
      cases hcore
      exact .inr (.inr ⟨_, _, _, _, _, _, _, rfl, hss, rfl⟩)

/-- What stands between brackets, its brackets and marks taken off. -/
theorem sublist_bracketed (opened : Lexeme) (ls closed marks : List Lexeme) :
    ls.Sublist (opened :: (ls ++ closed) ++ marks) :=
  ((List.sublist_append_left ls closed).cons opened).trans (List.sublist_append_left _ marks)

theorem Phrase.nested (hp : p.node? = some n) (h : InOrder p.lexemes) : n.Nested := by
  have hreach := Phrase.reaches hp h
  obtain ⟨-, hn⟩ | ⟨opened, first, others, closed, marks, m, ms, factor, span, rfl, hm, hms, rfl⟩ |
    ⟨opened, voices, closed, marks, ss, factor, span, rfl, hss, rfl⟩ := Phrase.node?_cases hp
  · exact hn
  · have hsub : (first.lexemes ++ phraseLexemes others).Sublist
        (Phrase.block (.group opened first others closed) marks).lexemes := by
      rw [Phrase.lexemes, Block.lexemes]
      exact sublist_bracketed ..
    exact (voice_laid hm hms (h.sublist hsub)).encloses (h.sublist hsub) fun l hl =>
      hreach.contains h (hsub.subset hl)
  · have hsub : voices.lexemes.Sublist
        (Phrase.block (.parallel opened voices closed) marks).lexemes := by
      rw [Phrase.lexemes, Block.lexemes]
      exact sublist_bracketed ..
    obtain ⟨hlaid, hvoices⟩ := Voices.laid hss (h.sublist hsub)
    exact ⟨hlaid.encloses (h.sublist hsub) fun l hl => hreach.contains h (hsub.subset hl), hvoices⟩

/-! ## Where they stand -/

/-- Every element of a list stands among the lexemes of the list. -/
theorem stands_phrases (hps : phraseNodes? ps = some ns) (hn : n ∈ ns) (before : List Lexeme)
    (ht : Ended t) : n.Stands (before ++ phraseLexemes ps ++ t) := by
  induction ps generalizing before ns with
  | nil =>
    rw [phraseNodes?_nil_eq_some.1 hps] at hn
    cases hn
  | cons p ps ih =>
    obtain ⟨m, ms, hm, hms, rfl⟩ := phraseNodes?_cons_eq_some.1 hps
    rw [phraseLexemes, ← List.append_assoc]
    rcases List.mem_cons.1 hn with rfl | hn
    · exact ⟨before, p, phraseLexemes ps ++ t, List.append_assoc _ _ _, hm,
        markless_phraseLexemes ps ht⟩
    · exact ih hms hn (before ++ p.lexemes)

theorem stands_voice {first : Phrase} (hm : first.node? = some m) (hps : phraseNodes? ps = some ns)
    (hn : n ∈ (voice m ns).elements) (before : List Lexeme) (ht : Ended t) :
    n.Stands (before ++ (first.lexemes ++ phraseLexemes ps) ++ t) := by
  have hall : phraseNodes? (first :: ps) = some (m :: ns) :=
    phraseNodes?_cons_eq_some.2 ⟨m, ns, hm, hps, rfl⟩
  have hstands := stands_phrases hall hn before ht
  rwa [phraseLexemes] at hstands

theorem Voices.stands : ∀ {v : Voices} {ss : List Sequence}, v.sequences? = some ss →
    ∀ s ∈ ss, n ∈ s.elements → ∀ before, Ended t → n.Stands (before ++ v.lexemes ++ t)
  | .last first others, ss, hv, s, hs, hn, before, ht => by
    obtain ⟨m, ms, hm, hms, rfl⟩ := sequences?_last_eq_some.1 hv
    rw [List.mem_singleton.1 hs] at hn
    rw [Voices.lexemes]
    exact stands_voice hm hms hn before ht
  | .more first others comma rest, ss, hv, s, hs, hn, before, ht => by
    obtain ⟨m, ms, ss, hm, hms, hss, rfl⟩ := sequences?_more_eq_some.1 hv
    rw [Voices.lexemes]
    rcases List.mem_cons.1 hs with rfl | hs
    · have hstands := stands_voice hm hms hn before
        (ended_closed comma (rest.lexemes ++ t) ⟨rfl, rfl⟩)
      simpa only [List.append_assoc, List.cons_append] using hstands
    · have hstands := Voices.stands hss s hs hn
        (before ++ (first.lexemes ++ phraseLexemes others) ++ [comma.val]) ht
      simpa only [List.append_assoc, List.cons_append, List.nil_append] using hstands
termination_by structural v => v

/-- Where a node stands, its elements stand, too. -/
theorem Node.Stands.part (h : n.Stands ls) (hm : m ∈ n.parts) : m.Stands ls := by
  obtain ⟨before, p, after, rfl, hp, -⟩ := h
  obtain ⟨hnone, -⟩ | ⟨opened, first, others, closed, marks, k, ks, factor, span, rfl, hk, hks, rfl⟩ |
    ⟨opened, voices, closed, marks, ss, factor, span, rfl, hss, rfl⟩ := Phrase.node?_cases hp
  · rw [hnone] at hm
    cases hm
  · have hstands := stands_voice hk hks hm (before ++ [opened.val])
      (ended_closed closed (marks.flatMap TimeMark.lexemes ++ after) ⟨rfl, rfl⟩)
    rw [Phrase.lexemes, Block.lexemes]
    simpa only [List.append_assoc, List.cons_append, List.nil_append] using hstands
  · obtain ⟨s, hs, hm⟩ := List.mem_flatMap.1 hm
    have hstands := Voices.stands hss s hs hm (before ++ [opened.val])
      (ended_closed closed (marks.flatMap TimeMark.lexemes ++ after) ⟨rfl, rfl⟩)
    rw [Phrase.lexemes, Block.lexemes]
    simpa only [List.append_assoc, List.cons_append, List.nil_append] using hstands

/-- Down the tree, from the elements of a score to their parts. -/
theorem Sequence.Has.stands {s : Sequence} (h : s.Has n) (hps : phraseNodes? ps = some s.elements) :
    n.Stands (phraseLexemes ps) := by
  induction h with
  | element hn =>
    have hstands := stands_phrases hps hn [] ended_nil
    rwa [List.nil_append, List.append_nil] at hstands
  | part _ hm ih => exact ih.part hm

end

/-! ## Stretches of a source -/

section

variable {o : Nat} {source cs : List Char} {ls before after : List Lexeme} {s : Span}

theorem byteLength_pos {cs : List Char} (h : cs ≠ []) : 0 < byteLength cs := by
  obtain ⟨c, tail, rfl⟩ := List.exists_cons_of_ne_nil h
  exact Nat.add_pos_left c.utf8Size_pos _

theorem slice?_between (a b c : List Char) :
    slice? (byteLength a) (byteLength a + byteLength b) (a ++ b ++ c) = some b := by
  rw [slice?, if_pos (Nat.le_add_right _ _), List.append_assoc, splitAt?_byteLength,
    Option.bind_some, Nat.add_sub_cancel_left]
  dsimp only
  rw [splitAt?_byteLength]
  rfl

theorem text_between (a b c : List Char) :
    (Span.mk (byteLength a) (byteLength a + byteLength b)).text (a ++ b ++ c) = b := by
  rw [Span.text, slice?_between]
  rfl

/-- All lexemes are inside their source, and none is empty. -/
theorem span_of_mem (h : itemsFrom o cs = ls.map .ok) {l : Lexeme} (hl : l ∈ ls) :
    o ≤ l.span.start ∧ l.span.start < l.span.stop ∧ l.span.stop ≤ o + byteLength cs := by
  obtain ⟨before, after, rfl⟩ := List.append_of_mem hl
  rw [List.map_append, List.map_cons] at h
  obtain ⟨a, b, rfl, hne, hspan⟩ := lexeme_at h
  have hpos := byteLength_pos hne
  rw [hspan, byteLength_append, byteLength_append]
  dsimp only
  omega

theorem inOrder_of_items (h : itemsFrom o cs = ls.map .ok) : InOrder ls := by
  refine ⟨fun l hl => (span_of_mem h hl).2.1, ?_⟩
  induction ls generalizing o cs with
  | nil => exact .nil
  | cons l ls ih =>
    obtain ⟨_, rest, -, -, hrest, -⟩ := cut_after (A := []) h
    exact List.pairwise_cons.2 ⟨fun m hm => (span_of_mem hrest hm).1, ih hrest⟩

theorem text_of_mem (h : items source = ls.map .ok) {l : Lexeme} (hl : l ∈ ls) :
    l.span.text source = l.text := by
  obtain ⟨before, after, rfl⟩ := List.append_of_mem hl
  rw [List.map_append, List.map_cons] at h
  obtain ⟨a, b, rfl, -, hspan⟩ := lexeme_at (o := 0) h
  rw [hspan, Nat.zero_add]
  exact text_between a l.text b

/-- A source is cut where some lexemes begin and where they end. -/
theorem cut_stretch (h : items source = (before ++ ls ++ after).map .ok) (hs : s.Reaches ls) :
    ∃ a b c, source = a ++ b ++ c ∧ s = ⟨byteLength a, byteLength a + byteLength b⟩ ∧
      itemsFrom s.start b = ls.map .ok := by
  obtain ⟨⟨f, hf, hstart⟩, ⟨g, hg, hstop⟩⟩ := hs
  obtain ⟨tail, htail⟩ := List.head?_eq_some_iff.1 hf
  obtain ⟨init, hinit⟩ := List.getLast?_eq_some_iff.1 hg
  have hfront : items source = before.map .ok ++ .ok f :: (tail ++ after).map .ok := by
    rw [h, htail]
    simp
  obtain ⟨a, rest, rfl, ha, hrest, -⟩ := cut_before hfront
  have hback : itemsFrom f.span.start rest = init.map .ok ++ .ok g :: after.map .ok := by
    have hsame : f :: (tail ++ after) = init ++ g :: after := by
      rw [← List.cons_append, ← htail, hinit]
      simp
    rw [← List.map_cons, ← List.map_append, ← hsame]
    exact hrest
  obtain ⟨b, c, rfl, hb, -, hcut⟩ := cut_after hback
  refine ⟨a, b, c, (List.append_assoc a b c).symm, ?_, ?_⟩
  · have hstart' : s.start = byteLength a := hstart.trans (ha.trans (Nat.zero_add _))
    have hstop' : s.stop = byteLength a + byteLength b := by rw [hstop, hb, ← hstart, hstart']
    rw [← hstop', ← hstart']
  · have hinner := hcut [] quiet_nil
    rw [List.append_nil, itemsFrom_nil] at hinner
    rw [hstart, hinner, hinit, List.map_append]
    rfl

/-- The text under the span of some lexemes has these lexemes, counted from where it begins. -/
theorem items_stretch (h : items source = (before ++ ls ++ after).map .ok) (hs : s.Reaches ls) :
    items (s.text source) = (ls.map (Lexeme.since s.start)).map .ok ∧
      byteLength (s.text source) = s.stop - s.start := by
  obtain ⟨a, b, c, rfl, hspan, hitems⟩ := cut_stretch h hs
  have htext : s.text (a ++ b ++ c) = b := by
    rw [hspan]
    exact text_between a b c
  rw [htext]
  refine ⟨items_since hitems, ?_⟩
  rw [hspan]
  exact (Nat.add_sub_cancel_left _ _).symm

/-- By itself, the text under the span of a node spells the node. -/
theorem read_stretch {p : Phrase} {n : Node} (hp : p.node? = some n)
    (h : items source = (before ++ p.lexemes ++ after).map .ok) (hn : n.span.Reaches p.lexemes) :
    read (n.span.text source) =
      .ok ⟨[n.since n.span.start], ⟨0, n.span.stop - n.span.start⟩⟩ := by
  obtain ⟨hitems, hlength⟩ := items_stretch h hn
  rw [← Phrase.lexemes_since] at hitems
  rw [read_of_items hitems, mapError_eq_ok, finish_run_iff]
  refine ⟨[p.since n.span.start], ?_, ?_, ?_⟩
  · rw [phraseLexemes, phraseLexemes, List.append_nil]
  · rw [phraseNodes?, phraseNodes?, Phrase.node?_since, hp]
    rfl
  · rw [hlength]

end

/-- A score has a derivation from the lexemes of its source. -/
theorem exists_derivation {source : List Char} {s : Sequence} (h : read source = .ok s) :
    ∃ ps, items source = (phraseLexemes ps).map .ok ∧ phraseNodes? ps = some s.elements ∧
      s.span = ⟨0, byteLength source⟩ := by
  obtain ⟨r, hr, -⟩ := bind_eq_ok h
  obtain ⟨ls, hitems, -⟩ := foldlM_take_ok hr
  rw [read_of_items hitems, mapError_eq_ok, finish_run_iff] at h
  obtain ⟨ps, rfl, hps, hspan⟩ := h
  exact ⟨ps, hitems, hps, hspan⟩

/-- The spans of a score are faithful.  That of the score is the whole source.  A node of the score,
however deep, is what a phrase of the source means, marks and all; its span reaches from the first
lexeme of the phrase to the last, covers a text that by itself spells the node, and encloses what is
directly inside the node. -/
theorem spans_faithful {source : List Char} {s : Sequence} (h : read source = .ok s) :
    s.span = ⟨0, byteLength source⟩ ∧ s.span.Encloses (s.elements.map Node.span) ∧
    ∀ n, s.Has n →
      (∃ (before : List Lexeme) (p : Phrase) (after : List Lexeme),
        tokenize source = .ok (before ++ p.lexemes ++ after) ∧ p.node? = some n ∧ Markless after ∧
        n.span.Reaches p.lexemes ∧ ∀ l ∈ p.lexemes, l.span.text source = l.text) ∧
      read (n.span.text source) = .ok ⟨[n.since n.span.start], ⟨0, n.span.stop - n.span.start⟩⟩ ∧
      n.Nested := by
  obtain ⟨ps, hitems, hps, hspan⟩ := exists_derivation h
  have horder := inOrder_of_items hitems
  refine ⟨hspan, (phrases_laid hps horder).encloses horder fun l hl => ?_, fun n hn => ?_⟩
  · obtain ⟨-, -, hstop⟩ := span_of_mem hitems hl
    rw [hspan]
    exact ⟨Nat.zero_le _, hstop.trans (Nat.zero_add _).le⟩
  · obtain ⟨before, p, after, hls, hp, hafter⟩ := hn.stands hps
    have hp' : InOrder p.lexemes := by
      rw [hls] at horder
      exact horder.left.right
    have hreach := Phrase.reaches hp hp'
    have htokens : tokenize source = .ok (before ++ p.lexemes ++ after) := by
      rw [tokenize, hitems, mapM_id_map_ok, hls]
    refine ⟨⟨before, p, after, htokens, hp, hafter, hreach, fun l hl => ?_⟩, ?_, Phrase.nested hp hp'⟩
    · refine text_of_mem hitems ?_
      rw [hls]
      exact List.mem_append_left after (List.mem_append_right before hl)
    · rw [hls] at hitems
      exact read_stretch hp hitems hreach

/-- A note two brackets deep, with a comment between it and its last marks. -/
theorem spans_faithful_nested :
    ∃ s n, read "0 (1 [C! // é\n .^, 3 4] // two\n @2 ~)/3".toList = .ok s ∧ s.Has n ∧
      n.span = ⟨6, 18⟩ ∧ read "C! // é\n .^".toList = .ok ⟨[n.since 6], ⟨0, 12⟩⟩ := by
  have hnode : ((read "0 (1 [C! // é\n .^, 3 4] // two\n @2 ~)/3".toList).toOption.bind fun s =>
      s.elements[1]?.bind fun n => (n.at? [1, 0]).map Node.span) = some ⟨6, 18⟩ := by decide +kernel
  have htext : (Span.mk 6 18).text "0 (1 [C! // é\n .^, 3 4] // two\n @2 ~)/3".toList =
      "C! // é\n .^".toList := by decide +kernel
  obtain ⟨s, n, hs, hhas, hspan⟩ := exists_node_at hnode
  obtain ⟨-, hread, -⟩ := (spans_faithful hs).2.2 n hhas
  rw [hspan, htext] at hread
  exact ⟨s, n, hs, hhas, hspan, hread⟩

end Stave.Score
