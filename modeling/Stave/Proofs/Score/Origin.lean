import Stave.Proofs.Score.Grammar
import Stave.Proofs.Score.Seam

/-!
# Scores counted from another origin

A stretch of a source has offsets of its own, counted from where the stretch begins, and so has a
source when another is put in front of it.  Counted so, its lexemes are the same but for their
spans, and what they derive and mean is the same but for its spans.  Nothing more is used of a
change of spans than that it keeps the least span around two.

    (p.respan f).lexemes = p.lexemes.map (Lexeme.respan f)                (Phrase.lexemes_respan)
    f is steady → (p.respan f).node? = p.node?.map (Node.respan f)        (Phrase.node?_respan)
    itemsFrom k cs = ls.map .ok →
      items cs = (ls.map (Lexeme.since k)).map .ok                        (items_since)
    itemsFrom o cs = ls.map .ok →
      itemsFrom (o + k) cs = (ls.map (Lexeme.later k)).map .ok            (itemsFrom_later)
-/

namespace Stave.Score

/-! ## Offsets -/

/-- The span in offsets counted from an origin that is not behind its start. -/
def Span.since (origin : Nat) (s : Span) : Span := ⟨s.start - origin, s.stop - origin⟩

/-- The span some bytes further on. -/
def Span.later (k : Nat) (s : Span) : Span := ⟨s.start + k, s.stop + k⟩

/-- A change of spans that keeps the least span around two. -/
def Span.Steady (f : Span → Span) : Prop := ∀ a b, f (a.merge b) = (f a).merge (f b)

theorem Span.steady_since (k : Nat) : Span.Steady (Span.since k) := by
  intro a b
  simp only [Span.since, Span.merge, Span.mk.injEq]
  omega

theorem Span.steady_later (k : Nat) : Span.Steady (Span.later k) := by
  intro a b
  simp only [Span.later, Span.merge, Span.mk.injEq]
  omega

theorem Span.since_later (k : Nat) (s : Span) : (s.later k).since k = s := by
  simp only [Span.later, Span.since, Nat.add_sub_cancel]

def Lexeme.respan (f : Span → Span) (l : Lexeme) : Lexeme := { l with span := f l.span }

def Lexeme.since (origin : Nat) (l : Lexeme) : Lexeme := { l with span := l.span.since origin }

def Lexeme.later (k : Nat) : Lexeme → Lexeme := Lexeme.respan (Span.later k)

/-! ## Trees -/

mutual

/-- The node with all spans changed. -/
def Node.respan (f : Span → Span) : Node → Node
  | .sequence s => .sequence (s.respan f)
  | .group elements factor span => .group (elementsRespan f elements) factor (f span)
  | .parallel voices factor span => .parallel (voicesRespan f voices) factor (f span)
  | .note n => .note { n with span := f n.span }
  | .rest r => .rest { r with span := f r.span }

def Sequence.respan (f : Span → Span) : Sequence → Sequence
  | ⟨elements, span⟩ => ⟨elementsRespan f elements, f span⟩

def elementsRespan (f : Span → Span) : List Node → List Node
  | [] => []
  | n :: ns => n.respan f :: elementsRespan f ns

def voicesRespan (f : Span → Span) : List Sequence → List Sequence
  | [] => []
  | s :: ss => s.respan f :: voicesRespan f ss

end

mutual

/-- The node with all offsets counted from an origin. -/
def Node.since (k : Nat) : Node → Node
  | .sequence s => .sequence (s.since k)
  | .group elements factor span => .group (elementsSince k elements) factor (span.since k)
  | .parallel voices factor span => .parallel (voicesSince k voices) factor (span.since k)
  | .note n => .note { n with span := n.span.since k }
  | .rest r => .rest { r with span := r.span.since k }

def Sequence.since (k : Nat) : Sequence → Sequence
  | ⟨elements, span⟩ => ⟨elementsSince k elements, span.since k⟩

def elementsSince (k : Nat) : List Node → List Node
  | [] => []
  | n :: ns => n.since k :: elementsSince k ns

def voicesSince (k : Nat) : List Sequence → List Sequence
  | [] => []
  | s :: ss => s.since k :: voicesSince k ss

end

/-- The node some bytes further on. -/
def Node.later (k : Nat) : Node → Node := Node.respan (Span.later k)

mutual

theorem Node.respan_since (k : Nat) : ∀ n : Node, n.respan (Span.since k) = n.since k
  | .sequence s => by rw [Node.respan, Node.since, Sequence.respan_since k s]
  | .group elements factor span => by rw [Node.respan, Node.since, elementsRespan_since k elements]
  | .parallel voices factor span => by rw [Node.respan, Node.since, voicesRespan_since k voices]
  | .note n => rfl
  | .rest r => rfl

theorem Sequence.respan_since (k : Nat) : ∀ s : Sequence, s.respan (Span.since k) = s.since k
  | ⟨elements, span⟩ => by rw [Sequence.respan, Sequence.since, elementsRespan_since k elements]

theorem elementsRespan_since (k : Nat) :
    ∀ ns : List Node, elementsRespan (Span.since k) ns = elementsSince k ns
  | [] => rfl
  | n :: ns => by
    rw [elementsRespan, elementsSince, Node.respan_since k n, elementsRespan_since k ns]

theorem voicesRespan_since (k : Nat) :
    ∀ ss : List Sequence, voicesRespan (Span.since k) ss = voicesSince k ss
  | [] => rfl
  | s :: ss => by
    rw [voicesRespan, voicesSince, Sequence.respan_since k s, voicesRespan_since k ss]

end

def Core.respan (f : Span → Span) : Core → Core
  | .note tone => .note tone
  | .rest => .rest
  | .group elements => .group (elementsRespan f elements)
  | .parallel voices => .parallel (voicesRespan f voices)

theorem Node.span_respan (f : Span → Span) (n : Node) : (n.respan f).span = f n.span := by
  rcases n with ⟨elements, span⟩ | _ | _ | _ | _ <;> rfl

theorem elementsRespan_eq_map (f : Span → Span) (ns : List Node) :
    elementsRespan f ns = ns.map (Node.respan f) := by
  induction ns with
  | nil => rfl
  | cons n ns ih => rw [elementsRespan, ih, List.map_cons]

/-! ## Derivations -/

def Terminal.respan {t : Token} (f : Span → Span) (l : Terminal t) : Terminal t :=
  ⟨l.val.respan f, l.2⟩

def TimeMark.respan (f : Span → Span) : TimeMark → TimeMark
  | .amount kind symbol number => .amount kind (symbol.respan f) (number.respan f)
  | .dot symbol => .dot (symbol.respan f)

def NoteMark.respan (f : Span → Span) : NoteMark → NoteMark
  | .time mark => .time (mark.respan f)
  | .inflection kind symbol => .inflection kind (symbol.respan f)

def ToneWord.respan (f : Span → Span) : ToneWord → ToneWord
  | .degree number => .degree (number.respan f)
  | .name word => .name (word.respan f)

mutual

def Phrase.respan (f : Span → Span) : Phrase → Phrase
  | .tone word marks => .tone (word.respan f) (marks.map (NoteMark.respan f))
  | .block block marks => .block (block.respan f) (marks.map (TimeMark.respan f))

def Block.respan (f : Span → Span) : Block → Block
  | .rest symbol => .rest (symbol.respan f)
  | .group opened first others closed =>
    .group (opened.respan f) (first.respan f) (phrasesRespan f others) (closed.respan f)
  | .parallel opened voices closed => .parallel (opened.respan f) (voices.respan f) (closed.respan f)

def Voices.respan (f : Span → Span) : Voices → Voices
  | .last first others => .last (first.respan f) (phrasesRespan f others)
  | .more first others comma rest =>
    .more (first.respan f) (phrasesRespan f others) (comma.respan f) (rest.respan f)

def phrasesRespan (f : Span → Span) : List Phrase → List Phrase
  | [] => []
  | p :: ps => p.respan f :: phrasesRespan f ps

end

/-- The derivation with all offsets counted from an origin. -/
def Phrase.since (k : Nat) : Phrase → Phrase := Phrase.respan (Span.since k)

section

variable (f : Span → Span)

/-! ## What a moved derivation spells -/

theorem TimeMark.lexemes_respan (m : TimeMark) :
    (m.respan f).lexemes = m.lexemes.map (Lexeme.respan f) := by
  cases m <;> rfl

theorem NoteMark.lexemes_respan (m : NoteMark) :
    (m.respan f).lexemes = m.lexemes.map (Lexeme.respan f) := by
  cases m with
  | time mark => exact mark.lexemes_respan f
  | inflection kind symbol => rfl

theorem ToneWord.lexeme_respan (w : ToneWord) : (w.respan f).lexeme = w.lexeme.respan f := by
  cases w <;> rfl

/-- Lexemes of the parts move with the parts. -/
theorem flatMap_respan {α : Type} {lexemes : α → List Lexeme} {move : α → α}
    (h : ∀ m, lexemes (move m) = (lexemes m).map (Lexeme.respan f)) (ms : List α) :
    (ms.map move).flatMap lexemes = (ms.flatMap lexemes).map (Lexeme.respan f) := by
  rw [List.flatMap_map, List.map_flatMap]
  simp only [h]

mutual

theorem Phrase.lexemes_respan :
    ∀ p : Phrase, (p.respan f).lexemes = p.lexemes.map (Lexeme.respan f)
  | .tone word marks => by
    rw [Phrase.respan, Phrase.lexemes, Phrase.lexemes, word.lexeme_respan,
      flatMap_respan f (NoteMark.lexemes_respan f), List.map_cons]
  | .block block marks => by
    rw [Phrase.respan, Phrase.lexemes, Phrase.lexemes, Block.lexemes_respan block,
      flatMap_respan f (TimeMark.lexemes_respan f), List.map_append]

theorem Block.lexemes_respan : ∀ b : Block, (b.respan f).lexemes = b.lexemes.map (Lexeme.respan f)
  | .rest symbol => by
    rw [Block.respan, Block.lexemes, Block.lexemes]
    rfl
  | .group opened first others closed => by
    rw [Block.respan, Block.lexemes, Block.lexemes, Phrase.lexemes_respan first,
      phraseLexemes_respan others, List.map_cons, List.map_append, List.map_append]
    rfl
  | .parallel opened voices closed => by
    rw [Block.respan, Block.lexemes, Block.lexemes, Voices.lexemes_respan voices, List.map_cons,
      List.map_append]
    rfl

theorem Voices.lexemes_respan :
    ∀ v : Voices, (v.respan f).lexemes = v.lexemes.map (Lexeme.respan f)
  | .last first others => by
    rw [Voices.respan, Voices.lexemes, Voices.lexemes, Phrase.lexemes_respan first,
      phraseLexemes_respan others, List.map_append]
  | .more first others comma rest => by
    rw [Voices.respan, Voices.lexemes, Voices.lexemes, Phrase.lexemes_respan first,
      phraseLexemes_respan others, Voices.lexemes_respan rest, List.map_append, List.map_append,
      List.map_cons]
    rfl

theorem phraseLexemes_respan : ∀ ps : List Phrase,
    phraseLexemes (phrasesRespan f ps) = (phraseLexemes ps).map (Lexeme.respan f)
  | [] => by
    rw [phrasesRespan, phraseLexemes]
    rfl
  | p :: ps => by
    rw [phrasesRespan, phraseLexemes, phraseLexemes, Phrase.lexemes_respan p,
      phraseLexemes_respan ps, List.map_append]

end

theorem Phrase.lexemes_since (k : Nat) (p : Phrase) :
    (p.since k).lexemes = p.lexemes.map (Lexeme.since k) := p.lexemes_respan (Span.since k)

/-! ## What a moved derivation means -/

/-- What marks say does not depend on where they stand. -/
theorem filterMap_moved {α β : Type} {move : β → β} {field : β → Option α}
    (h : ∀ m, field (move m) = field m) (ms : List β) :
    (ms.map move).filterMap field = ms.filterMap field := by
  rw [List.filterMap_map]
  exact congrArg (List.filterMap · ms) (funext h)

theorem countP_isDot_respan (ms : List TimeMark) :
    (ms.map (TimeMark.respan f)).countP TimeMark.isDot = ms.countP TimeMark.isDot := by
  have hdot : TimeMark.isDot ∘ TimeMark.respan f = TimeMark.isDot := by
    funext m
    cases m <;> rfl
  rw [List.countP_map, hdot]

theorem factor?_respan (ms : List TimeMark) : factor? (ms.map (TimeMark.respan f)) = factor? ms := by
  have hscale : ∀ q m, TimeMark.scale? q (m.respan f) = TimeMark.scale? q m := by
    intro q m
    cases m <;> rfl
  unfold factor?
  rw [List.foldlM_map, countP_isDot_respan]
  simp only [hscale]

theorem times_respan (ms : List NoteMark) : (ms.map (NoteMark.respan f)).filterMap NoteMark.time? =
    (ms.filterMap NoteMark.time?).map (TimeMark.respan f) := by
  have htime : NoteMark.time? ∘ NoteMark.respan f =
      fun m => m.time?.map (TimeMark.respan f) := by
    funext m
    cases m <;> rfl
  rw [List.filterMap_map, List.map_filterMap, htime]

theorem octave?_respan (m : NoteMark) : (m.respan f).octave? = m.octave? := by
  cases m <;> rfl

theorem articulation?_respan (m : NoteMark) : (m.respan f).articulation? = m.articulation? := by
  cases m <;> rfl

end

section

variable {f : Span → Span}

theorem markedSpan_respan (hf : Span.Steady f) (core : Span) (ms : List NoteMark) :
    markedSpan (f core) (ms.map (NoteMark.respan f)) = f (markedSpan core ms) := by
  have hlast : ∀ m : NoteMark, (m.respan f).last = m.last.respan f := by
    rintro ((_ | _) | _) <;> rfl
  unfold markedSpan
  rw [List.getLast?_map]
  cases ms.getLast? with
  | none => rfl
  | some m =>
    show (f core).merge (m.respan f).last.span = f (core.merge m.last.span)
    rw [hlast, hf]
    rfl

theorem Core.element_respan (core : Core) (shift : Int) (articulations : List Articulation)
    (factor : Ratio) (span : Span) : (core.respan f).element shift articulations factor (f span) =
      (core.element shift articulations factor span).respan f := by
  cases core <;> rfl

theorem Core.marked?_respan (hf : Span.Steady f) (core : Core) (span : Span) (ms : List NoteMark) :
    (core.respan f).marked? (f span) (ms.map (NoteMark.respan f)) =
      (core.marked? span ms).map (Node.respan f) := by
  unfold Core.marked? octaveShift
  rw [filterMap_moved (octave?_respan f), filterMap_moved (articulation?_respan f),
    times_respan, factor?_respan, markedSpan_respan hf]
  cases factor? (ms.filterMap NoteMark.time?) with
  | none => rfl
  | some factor => exact congrArg some (Core.element_respan ..)

theorem voice_respan (hf : Span.Steady f) (first : Node) (others : List Node) :
    voice (first.respan f) (elementsRespan f others) = (voice first others).respan f := by
  have hlast : (elementsRespan f others).getLastD (first.respan f) =
      (others.getLastD first).respan f := by
    induction others generalizing first with
    | nil => rfl
    | cons n others ih =>
      rw [elementsRespan, List.getLastD_cons, List.getLastD_cons, ih]
  unfold voice
  rw [hlast, Node.span_respan, Node.span_respan, ← hf]
  rfl

mutual

/-- What a derivation means does not depend on where offsets are counted from. -/
theorem Phrase.node?_respan (hf : Span.Steady f) :
    ∀ p : Phrase, (p.respan f).node? = p.node?.map (Node.respan f)
  | .tone word marks => by
    have htone : (word.respan f).tone? = word.tone? := by cases word <;> rfl
    rw [Phrase.respan, Phrase.node?, Phrase.node?, htone, word.lexeme_respan]
    cases word.tone? with
    | none => rfl
    | some tone => exact Core.marked?_respan hf (.note tone) word.lexeme.span marks
  | .block block marks => by
    have hspan : (block.respan f).span = f block.span := by
      cases block with
      | rest symbol => rfl
      | group opened first others closed => exact (hf ..).symm
      | parallel opened voices closed => exact (hf ..).symm
    have hmarks : (marks.map (TimeMark.respan f)).map NoteMark.time =
        (marks.map NoteMark.time).map (NoteMark.respan f) := by
      rw [List.map_map, List.map_map]
      rfl
    rw [Phrase.respan, Phrase.node?, Phrase.node?, Block.core?_respan hf block, hspan, hmarks]
    cases block.core? with
    | none => rfl
    | some core => exact Core.marked?_respan hf core block.span _

theorem Block.core?_respan (hf : Span.Steady f) :
    ∀ b : Block, (b.respan f).core? = b.core?.map (Core.respan f)
  | .rest symbol => by
    rw [Block.respan, Block.core?, Block.core?]
    rfl
  | .group opened first others closed => by
    rw [Block.respan, Block.core?, Block.core?, Phrase.node?_respan hf first,
      phraseNodes?_respan hf others]
    cases first.node? <;> cases phraseNodes? others <;> rfl
  | .parallel opened voices closed => by
    rw [Block.respan, Block.core?, Block.core?, Voices.sequences?_respan hf voices]
    cases voices.sequences? <;> rfl

theorem Voices.sequences?_respan (hf : Span.Steady f) : ∀ v : Voices,
    (v.respan f).sequences? = v.sequences?.map (voicesRespan f)
  | .last first others => by
    rw [Voices.respan, Voices.sequences?, Voices.sequences?, Phrase.node?_respan hf first,
      phraseNodes?_respan hf others]
    cases first.node? with
    | none => rfl
    | some n =>
      cases phraseNodes? others with
      | none => rfl
      | some ns => exact congrArg (fun s => some [s]) (voice_respan hf n ns)
  | .more first others comma rest => by
    rw [Voices.respan, Voices.sequences?, Voices.sequences?, Phrase.node?_respan hf first,
      phraseNodes?_respan hf others, Voices.sequences?_respan hf rest]
    cases first.node? with
    | none => rfl
    | some n =>
      cases phraseNodes? others with
      | none => rfl
      | some ns =>
        cases rest.sequences? with
        | none => rfl
        | some ss => exact congrArg (fun s => some (s :: voicesRespan f ss)) (voice_respan hf n ns)

theorem phraseNodes?_respan (hf : Span.Steady f) : ∀ ps : List Phrase,
    phraseNodes? (phrasesRespan f ps) = (phraseNodes? ps).map (elementsRespan f)
  | [] => by
    rw [phrasesRespan, phraseNodes?]
    rfl
  | p :: ps => by
    rw [phrasesRespan, phraseNodes?, phraseNodes?, Phrase.node?_respan hf p, phraseNodes?_respan hf ps]
    cases p.node? <;> cases phraseNodes? ps <;> rfl

end

end

theorem Phrase.node?_since (k : Nat) (p : Phrase) : (p.since k).node? = p.node?.map (Node.since k) := by
  rw [Phrase.since, Phrase.node?_respan (Span.steady_since k)]
  exact congrArg (p.node?.map ·) (funext (Node.respan_since k))

/-! ## The lexemes of a stretch -/

def itemLater (k : Nat) : Item → Item
  | .ok l => .ok (l.later k)
  | .error e => .error { e with offset := e.offset + k }

theorem item?_later (k : Nat) (s : Segment) :
    Segment.item? { s with start := s.start + k } = s.item?.map (itemLater k) := by
  obtain ⟨kind, start, text⟩ := s
  have hspan : (⟨start + k, start + k + Text.byteLength text⟩ : Span) =
      Span.later k ⟨start, start + Text.byteLength text⟩ := by
    simp only [Span.later, Span.mk.injEq, true_and]
    omega
  rcases kind with t | _ | _
  · cases t <;> simp [Segment.item?, itemLater, Lexeme.later, Lexeme.respan, hspan]
  · rfl
  · rfl

/-- The items of a text move with the text. -/
theorem itemsFrom_add (o k : Nat) (cs : List Char) :
    itemsFrom (o + k) cs = (itemsFrom o cs).map (itemLater k) := by
  rw [itemsFrom, itemsFrom, segments_shift, List.filterMap_map, List.map_filterMap]
  exact congrArg (List.filterMap · _) (funext (item?_later k))

theorem itemsFrom_later {o : Nat} {cs : List Char} {ls : List Lexeme}
    (h : itemsFrom o cs = ls.map .ok) (k : Nat) :
    itemsFrom (o + k) cs = (ls.map (Lexeme.later k)).map .ok := by
  rw [itemsFrom_add, h, List.map_map, List.map_map]
  rfl

theorem eq_of_later {k : Nat} {is : List Item} {ls : List Lexeme}
    (h : is.map (itemLater k) = ls.map .ok) : is = (ls.map (Lexeme.since k)).map .ok := by
  induction is generalizing ls with
  | nil =>
    rw [List.map_eq_nil_iff.1 h.symm]
    rfl
  | cons x is ih =>
    cases ls with
    | nil => cases h
    | cons l ls =>
      obtain ⟨hx, his⟩ := List.cons.inj h
      rw [ih his]
      cases x with
      | error e => cases hx
      | ok m =>
        cases hx
        have hsame : (m.later k).since k = m := congrArg (fun s => { m with span := s }) (m.span.since_later k)
        rw [List.map_cons, List.map_cons, hsame]

/-- A stretch that has these lexemes where it stands has them by itself. -/
theorem items_since {k : Nat} {cs : List Char} {ls : List Lexeme}
    (h : itemsFrom k cs = ls.map .ok) : items cs = (ls.map (Lexeme.since k)).map .ok := by
  have hlater := itemsFrom_add 0 k cs
  rw [Nat.zero_add, h] at hlater
  exact eq_of_later hlater.symm

end Stave.Score
