import Stave.Proofs.Score.Exact
import Stave.Proofs.Score.Place
import Stave.Proofs.Score.Viable

/-!
# Every fault can be shown

Whatever the lexer, the reader or the decoder blames is a text of the source: it begins and ends
where characters do.  So it can be cut out of the source, and shown as the line on which it begins
with carets under as much of it as stands on that line.

    s.Fits source → s.Shown source                                        (Span.Fits.shown)
    read source = .error e → e.span.Fits source                           (fits_of_read)
    playNode c start beat n = .error e → e blames n or something inside   (playNode_covers)
    all faults of a source together                                       (faults_shown)
-/

namespace Stave.Score

open Stave.Text

/-! ## Spans of a source -/

/-- A span over a text of the source. -/
def Span.Fits (s : Span) (source : List Char) : Prop :=
  ∃ before covered after, source = before ++ covered ++ after ∧
    s = ⟨byteLength before, byteLength before + byteLength covered⟩

/-- The line of a source on which an offset is, parted at the offset. -/
def IsLine (source : List Char) (offset : Nat) (head tail : List Char) : Prop :=
  ∃ above below, source = above ++ (head ++ tail) ++ below ∧ offset = byteLength (above ++ head) ∧
    (∀ c ∈ head ++ tail, c ≠ '\n') ∧ (∀ c ∈ above.getLast?, c = '\n') ∧ ∀ c ∈ below.head?, c = '\n'

/-- A span that can be cut out of its source and pointed at: a line, and below it a blank for each
character before the span and a caret for each character of the span on the line, at least one. -/
structure Span.Shown (s : Span) (source : List Char) : Prop where
  ordered : s.start ≤ s.stop
  inside : s.stop ≤ byteLength source
  start : (splitAt? s.start source).isSome
  stop : (splitAt? s.stop source).isSome
  text : slice? s.start s.stop source = some (s.text source)
  underline : ∃ head tail, IsLine source s.start head tail ∧
    s.underline? source = some (String.ofList (head ++ tail ++ '\n' ::
      (List.replicate head.length ' ' ++
        List.replicate (max 1 ((s.text source).takeWhile (· ≠ '\n')).length) '^')))

theorem not_isLineBreak : (fun c => !Span.isLineBreak c) = fun c => decide (c ≠ '\n') := by
  funext c
  rw [Span.isLineBreak, decide_not]

/-- What a front of a text has of the text's first line. -/
theorem byteLength_takeWhile (p : Char → Bool) (front rest : List Char) :
    min (byteLength front) (byteLength ((front ++ rest).takeWhile p)) =
      byteLength (front.takeWhile p) := by
  induction front with
  | nil => exact Nat.zero_min _
  | cons c front ih =>
    rw [List.cons_append]
    by_cases hc : p c = true
    · rw [List.takeWhile_cons_of_pos hc, List.takeWhile_cons_of_pos hc, byteLength_cons,
        byteLength_cons, byteLength_cons, Nat.add_min_add_left, ih]
    · rw [List.takeWhile_cons_of_neg hc, List.takeWhile_cons_of_neg hc]
      exact Nat.min_zero _

theorem caretCount_eq (before covered after : List Char) :
    Span.caretCount ⟨byteLength before, byteLength before + byteLength covered⟩ (byteLength before)
      (byteLength before + byteLength ((covered ++ after).takeWhile (· ≠ '\n')))
      (before ++ covered ++ after) = max 1 (covered.takeWhile (· ≠ '\n')).length := by
  have hsource : before ++ covered ++ after =
      before ++ covered.takeWhile (· ≠ '\n') ++ (covered.dropWhile (· ≠ '\n') ++ after) := by
    rw [List.append_assoc, List.append_assoc, ← List.append_assoc (covered.takeWhile _),
      List.takeWhile_append_dropWhile]
  rw [Span.caretCount, Nat.add_min_add_left, byteLength_takeWhile, hsource, slice?_between]
  rfl

/-- A text is parted where its last line begins. -/
theorem exists_last_line (before : List Char) : ∃ above head, before = above ++ head ∧
    head = (before.reverse.takeWhile (· ≠ '\n')).reverse ∧ (∀ c ∈ head, c ≠ '\n') ∧
    ∀ c ∈ above.getLast?, c = '\n' := by
  refine ⟨(before.reverse.dropWhile (· ≠ '\n')).reverse, _, ?_, rfl, fun c hc => ?_, fun c hc => ?_⟩
  · rw [← List.reverse_append, List.takeWhile_append_dropWhile, List.reverse_reverse]
  · exact of_decide_eq_true
      (List.mem_takeWhile_imp (p := fun c => decide (c ≠ '\n')) (List.mem_reverse.1 hc))
  · rw [List.getLast?_reverse] at hc
    have hstop := List.head?_dropWhile_not (fun c => decide (c ≠ '\n')) before.reverse
    rw [hc] at hstop
    exact not_not.1 (of_decide_eq_false hstop)

/-- A text is parted where its first line ends. -/
theorem exists_first_line (rest : List Char) : ∃ tail below, rest = tail ++ below ∧
    tail = rest.takeWhile (· ≠ '\n') ∧ (∀ c ∈ tail, c ≠ '\n') ∧ ∀ c ∈ below.head?, c = '\n' := by
  refine ⟨_, rest.dropWhile (· ≠ '\n'), ?_, rfl, fun c hc => ?_, fun c hc => ?_⟩
  · rw [List.takeWhile_append_dropWhile]
  · exact of_decide_eq_true (List.mem_takeWhile_imp (p := fun c => decide (c ≠ '\n')) hc)
  · have hstop := List.head?_dropWhile_not (fun c => decide (c ≠ '\n')) rest
    rw [hc] at hstop
    exact not_not.1 (of_decide_eq_false hstop)

namespace Span.Fits

variable {s : Span} {source : List Char}

theorem underline (h : s.Fits source) : ∃ head tail, IsLine source s.start head tail ∧
    s.underline? source = some (String.ofList (head ++ tail ++ '\n' ::
      (List.replicate head.length ' ' ++
        List.replicate (max 1 ((s.text source).takeWhile (· ≠ '\n')).length) '^'))) := by
  obtain ⟨before, covered, after, rfl, rfl⟩ := h
  obtain ⟨above, head, habove, hhead, hheadLine, hbreak⟩ := exists_last_line before
  obtain ⟨tail, below, hbelow, htail, htailLine, hbreak'⟩ := exists_first_line (covered ++ after)
  refine ⟨head, tail, ⟨above, below, ?_, ?_, ?_, hbreak, hbreak'⟩, ?_⟩
  · rw [List.append_assoc, hbelow, habove]
    simp
  · rw [← habove]
  · exact List.forall_mem_append.2 ⟨hheadLine, htailLine⟩
  · have hstart : min (byteLength before) (byteLength (before ++ covered ++ after)) =
        byteLength before := by
      rw [List.append_assoc, byteLength_append]
      omega
    rw [Span.underline?, hstart, text_between]
    dsimp only
    rw [not_isLineBreak, List.append_assoc before, splitAt?_byteLength, ← List.append_assoc,
      Option.bind_eq_bind, Option.bind_some]
    dsimp only
    rw [caretCount_eq, ← hhead, ← htail]
    simp

theorem shown (h : s.Fits source) : s.Shown source := by
  have hunderline := h.underline
  obtain ⟨before, covered, after, rfl, rfl⟩ := h
  have hstop := splitAt?_byteLength (before ++ covered) after
  refine ⟨Nat.le_add_right _ _, ?_, ?_, ?_, ?_, hunderline⟩
  · rw [byteLength_append, byteLength_append]
    exact Nat.le_add_right _ _
  · rw [List.append_assoc, splitAt?_byteLength]
    rfl
  · rw [byteLength_append] at hstop
    rw [hstop]
    rfl
  · rw [text_between]
    exact slice?_between before covered after

end Span.Fits

/-! ## What the lexer and the reader blame -/

section

variable {source : List Char} {A R : List Item}

theorem fits_lexeme {l : Lexeme} (h : items source = A ++ .ok l :: R) : l.span.Fits source := by
  obtain ⟨before, after, hsource, -, hspan⟩ := lexeme_at (o := 0) h
  rw [Nat.zero_add] at hspan
  exact ⟨before, l.text, after, hsource, hspan⟩

theorem fits_stray {e : Stray} (h : items source = A ++ .error e :: R) :
    (Span.point e.offset).Fits source := by
  obtain ⟨before, after, rfl, hstart, -⟩ := cut_before (o := 0) h
  have hoffset : e.offset = byteLength before := hstart.trans (Nat.zero_add _)
  exact ⟨before, [], after, by simp, by rw [hoffset]; rfl⟩

theorem fits_end (source : List Char) : (Span.point (byteLength source)).Fits source :=
  ⟨source, [], [], by simp, rfl⟩

theorem Span.Fits.point {s : Span} (h : s.Fits source) : (Span.point s.start).Fits source := by
  obtain ⟨before, covered, after, rfl, rfl⟩ := h
  exact ⟨before, [], covered ++ after, by simp, rfl⟩

theorem fits_of_mem {ls : List Lexeme} {l : Lexeme} (h : items source = ls.map .ok ++ R)
    (hl : l ∈ ls) : l.span.Fits source := by
  obtain ⟨before, after, rfl⟩ := List.append_of_mem hl
  rw [List.map_append, List.map_cons, List.append_assoc, List.cons_append] at h
  exact fits_lexeme h

/-- The reader blames a character that begins no lexeme, a lexeme, or the end. -/
theorem fits_of_read {e : Fault} (h : read source = .error e) : e.span.Fits source := by
  rcases bind_eq_error h with htake | ⟨r, hr, hfinish⟩
  · obtain ⟨ls, r, x, rest, hitems, hrun, hx⟩ := foldlM_take_error htake
    cases x with
    | error stray =>
      cases hx
      exact fits_stray hitems
    | ok l =>
      obtain ⟨f, hf, rfl⟩ := mapError_eq_error.1 hx
      show f.span.Fits source
      rcases (recalls_start.run hrun).step_error hf with hl | ⟨m, hm, hspan⟩
      · rw [hl]
        exact fits_lexeme hitems
      · rw [hspan]
        exact fits_of_mem hitems hm
  · obtain ⟨ls, hitems, hrun⟩ := foldlM_take_ok hr
    obtain ⟨f, hf, rfl⟩ := mapError_eq_error.1 hfinish
    show f.span.Fits source
    rcases (recalls_start.run hrun).finish_error hf with hend | ⟨m, hm, hspan⟩
    · rw [hend]
      exact fits_end source
    · rw [hspan]
      exact fits_of_mem (hitems.trans (List.append_nil _).symm) hm

end

/-! ## What the decoder blames -/

/-- The span of a node, or of a node or a voice inside it. -/
inductive Node.Covers : Node → Span → Prop
  | self (n : Node) : Covers n n.span
  | voice {voices : List Sequence} {factor : Ratio} {span : Span} {s : Sequence} (hs : s ∈ voices) :
      Covers (.parallel voices factor span) s.span
  | part {n m : Node} {t : Span} (hm : m ∈ n.parts) (h : Covers m t) : Covers n t

/-- The span of a sequence, or one of its elements'. -/
def Sequence.Covers (s : Sequence) (t : Span) : Prop := t = s.span ∨ ∃ n ∈ s.elements, n.Covers t

section

variable {c : Setting} {e : DecodeFault}

theorem inTime_error {span : Span} {t : Option Ratio} (h : inTime span t = .error e) :
    e.span = span := by
  cases t <;> cases h
  rfl

theorem eventOf_error {n : Note} {start duration : Ratio} (h : eventOf c n start duration = .error e) :
    e.span = n.span := by
  unfold eventOf at h
  split at h <;> cases h
  rfl

theorem Division.slot_error {d : Division} {n : Node} (h : d.slot n = .error e) : e.span = n.span := by
  unfold Division.slot at h
  split at h
  · cases h
  · rcases bind_eq_error h with h | ⟨length, -, h⟩ <;> exact inTime_error h

mutual

theorem playNode_covers : ∀ {n : Node} {start beat : Ratio},
    playNode c start beat n = .error e → n.Covers e.span
  | .sequence s, start, beat, h => by
    rw [playNode] at h
    obtain hspan | ⟨m, hm, hcovers⟩ := playSequence_covers h
    · exact hspan ▸ .self (.sequence s)
    · exact .part hm hcovers
  | .group elements factor span, start, beat, h => by
    rw [playNode] at h
    have hself : e.span = span → Node.Covers (.group elements factor span) e.span :=
      fun hspan => hspan ▸ .self (.group elements factor span)
    rcases bind_eq_error h with h | ⟨total, -, h⟩
    · exact hself (inTime_error h)
    · rcases bind_eq_error h with h | ⟨weight, -, h⟩
      · exact hself (inTime_error h)
      · cases elements with
        | nil => cases h
        | cons m ms =>
          dsimp only at h
          split at h
          · obtain ⟨k, hk, hcovers⟩ := playSlots_covers (bind_pure_eq_error h)
            exact .part hk hcovers
          · cases h
            exact hself rfl
  | .parallel voices factor span, start, beat, h => by
    rw [playNode] at h
    rcases bind_eq_error h with h | ⟨voiceBeat, -, h⟩
    · exact inTime_error h ▸ .self (.parallel voices factor span)
    · obtain ⟨s, hs, hspan | ⟨m, hm, hcovers⟩⟩ := playVoices_covers h
      · exact hspan ▸ .voice hs
      · exact .part (List.mem_flatMap.2 ⟨s, hs, hm⟩) hcovers
  | .note n, start, beat, h => by
    rw [playNode] at h
    rcases bind_eq_error h with h | ⟨duration, -, h⟩
    · exact inTime_error h ▸ .self (.note n)
    · rcases bind_eq_error h with h | ⟨stop, -, h⟩
      · exact inTime_error h ▸ .self (.note n)
      · exact eventOf_error (bind_pure_eq_error h) ▸ .self (.note n)
  | .rest r, start, beat, h => by
    rw [playNode] at h
    exact inTime_error (bind_pure_eq_error h) ▸ .self (.rest r)

theorem playSequence_covers : ∀ {s : Sequence} {start beat : Ratio},
    playSequence c start beat s = .error e → s.Covers e.span
  | ⟨elements, span⟩, start, beat, h => by
    rw [playSequence] at h
    rcases bind_eq_error h with h | ⟨p, -, h⟩
    · exact .inr (playElements_covers h)
    · exact .inl (inTime_error (bind_pure_eq_error h))

theorem playElements_covers : ∀ {ns : List Node} {cursor beat : Ratio},
    playElements c cursor beat ns = .error e → ∃ n ∈ ns, n.Covers e.span
  | [], cursor, beat, h => by
    rw [playElements] at h
    cases h
  | n :: ns, cursor, beat, h => by
    rw [playElements] at h
    rcases bind_eq_error h with h | ⟨p, -, h⟩
    · exact ⟨n, List.mem_cons_self, playNode_covers h⟩
    · rcases bind_eq_error h with h | ⟨next, -, h⟩
      · exact ⟨n, List.mem_cons_self, inTime_error h ▸ .self n⟩
      · obtain ⟨m, hm, hcovers⟩ := playElements_covers (bind_pure_eq_error h)
        exact ⟨m, List.mem_cons_of_mem n hm, hcovers⟩

theorem playSlots_covers : ∀ {ns : List Node} {d : Division} {cursor : Ratio},
    playSlots c d cursor ns = .error e → ∃ n ∈ ns, n.Covers e.span
  | [], d, cursor, h => by
    rw [playSlots] at h
    cases h
  | n :: ns, d, cursor, h => by
    rw [playSlots] at h
    rcases bind_eq_error h with h | ⟨slot, -, h⟩
    · exact ⟨n, List.mem_cons_self, Division.slot_error h ▸ .self n⟩
    · rcases bind_eq_error h with h | ⟨p, -, h⟩
      · exact ⟨n, List.mem_cons_self, playNode_covers h⟩
      · rcases bind_eq_error h with h | ⟨next, -, h⟩
        · exact ⟨n, List.mem_cons_self, inTime_error h ▸ .self n⟩
        · obtain ⟨m, hm, hcovers⟩ := playSlots_covers (bind_pure_eq_error h)
          exact ⟨m, List.mem_cons_of_mem n hm, hcovers⟩

theorem playVoices_covers : ∀ {ss : List Sequence} {start beat longest : Ratio},
    playVoices c start beat longest ss = .error e → ∃ s ∈ ss, s.Covers e.span
  | [], start, beat, longest, h => by
    rw [playVoices] at h
    cases h
  | s :: ss, start, beat, longest, h => by
    rw [playVoices] at h
    rcases bind_eq_error h with h | ⟨p, -, h⟩
    · exact ⟨s, List.mem_cons_self, playSequence_covers h⟩
    · obtain ⟨t, ht, hcovers⟩ := playVoices_covers (bind_pure_eq_error h)
      exact ⟨t, List.mem_cons_of_mem s ht, hcovers⟩

end

end

/-! ## Spans of the tree -/

/-- Spans laid over some lexemes each reach over a stretch of them. -/
theorem Laid.mem {spans : List Span} {ls : List Lexeme} {t : Span} (h : Laid spans ls)
    (ht : t ∈ spans) : ∃ before stretch after, ls = before ++ stretch ++ after ∧ t.Reaches stretch := by
  induction h with
  | nil ls => cases ht
  | skip l h ih =>
    obtain ⟨before, stretch, after, rfl, hreaches⟩ := ih ht
    exact ⟨l :: before, stretch, after, rfl, hreaches⟩
  | @cons s spans ls ms hs h ih =>
    rcases List.mem_cons.1 ht with rfl | ht
    · exact ⟨[], ls, ms, rfl, hs⟩
    · obtain ⟨before, stretch, after, rfl, hreaches⟩ := ih ht
      exact ⟨ls ++ before, stretch, after, by simp, hreaches⟩

/-- Only brackets with voices mean parallel blocks. -/
theorem Phrase.node?_parallel {p : Phrase} {voices : List Sequence} {factor : Ratio} {span : Span}
    (h : p.node? = some (.parallel voices factor span)) : ∃ opened inner closed marks,
      p = .block (.parallel opened inner closed) marks ∧ inner.sequences? = some voices := by
  cases p with
  | tone word marks =>
    rw [Phrase.node?] at h
    obtain ⟨tone, -, hn⟩ := Option.bind_eq_some_iff.1 h
    obtain ⟨q, -, hn⟩ := Option.bind_eq_some_iff.1 hn
    cases hn
  | block b marks =>
    rw [Phrase.node?] at h
    obtain ⟨core, hcore, hn⟩ := Option.bind_eq_some_iff.1 h
    obtain ⟨q, -, hn⟩ := Option.bind_eq_some_iff.1 hn
    cases b with
    | rest symbol =>
      rw [Block.core?] at hcore
      cases hcore
      cases hn
    | group opened first others closed =>
      obtain ⟨m, ms, -, -, rfl⟩ := core?_group_eq_some.1 hcore
      cases hn
    | parallel opened inner closed =>
      rw [Block.core?] at hcore
      obtain ⟨ss, hss, hcore⟩ := Option.bind_eq_some_iff.1 hcore
      cases hcore
      cases hn
      exact ⟨_, _, _, _, rfl, hss⟩

section

variable {source : List Char} {ps : List Phrase} {s : Sequence} {n : Node} {t : Span}

theorem fits_stretch {before ls after : List Lexeme}
    (h : items source = (before ++ ls ++ after).map .ok) (ht : t.Reaches ls) : t.Fits source := by
  obtain ⟨a, b, c, hsource, hspan, -⟩ := cut_stretch h ht
  exact ⟨a, b, c, hsource, hspan⟩

/-- Nodes of a score, and the voices of its parallel blocks, are over texts of the source. -/
theorem Sequence.Has.fits (h : s.Has n) (hitems : items source = (phraseLexemes ps).map .ok)
    (hps : phraseNodes? ps = some s.elements) : n.span.Fits source ∧
      ∀ voices factor span, n = .parallel voices factor span → ∀ v ∈ voices, v.span.Fits source := by
  obtain ⟨before, p, after, hls, hp, -⟩ := h.stands hps
  have horder := inOrder_of_items hitems
  rw [hls] at horder hitems
  refine ⟨fits_stretch hitems (Phrase.reaches hp horder.left.right), ?_⟩
  rintro voices factor span rfl v hv
  obtain ⟨opened, inner, closed, marks, rfl, hvoices⟩ := Phrase.node?_parallel hp
  rw [Phrase.lexemes, Block.lexemes] at hitems horder
  have hinner := horder.left.right.sublist (sublist_bracketed opened.val inner.lexemes _ _)
  obtain ⟨a, b, c, hlexemes, hreaches⟩ :=
    (Voices.laid hvoices hinner).1.mem (List.mem_map_of_mem hv)
  have hstretch : items source = ((before ++ opened.val :: a) ++ b ++
      (c ++ [closed.val] ++ marks.flatMap TimeMark.lexemes ++ after)).map .ok := by
    rw [hitems, hlexemes]
    simp
  exact fits_stretch hstretch hreaches

theorem Node.Covers.fits (h : n.Covers t) (hn : s.Has n)
    (hitems : items source = (phraseLexemes ps).map .ok)
    (hps : phraseNodes? ps = some s.elements) : t.Fits source := by
  induction h with
  | self n => exact (hn.fits hitems hps).1
  | voice hs => exact (hn.fits hitems hps).2 _ _ _ rfl _ hs
  | part hm _ ih => exact ih (hn.part hm)

/-- Whatever the setting, the decoder blames a text of the source. -/
theorem fits_of_decode {c : Setting} {start : Ratio} {e : DecodeFault} (hread : read source = .ok s)
    (h : decode c start s = .error e) : e.span.Fits source := by
  obtain ⟨ps, hitems, hps, hspan⟩ := exists_derivation hread
  rcases playSequence_covers (bind_pure_eq_error h) with hroot | ⟨n, hn, hcovers⟩
  · exact ⟨[], source, [], by simp, by rw [hroot, hspan]; simp⟩
  · exact hcovers.fits (.element hn) hitems hps

end

/-- Every fault can be shown: what the lexer, the reader or the decoder blames, and the place where
it begins, is cut out of the source and pointed at without fail.  The rows are the line on which the
fault begins, and below it as many blanks as characters stand before the fault on that line, and as
many carets as characters of the fault stand on it, but one at least. -/
theorem faults_shown {source : List Char} :
    (∀ e, tokenize source = .error e → (Span.point e.offset).Shown source) ∧
    (∀ e, read source = .error e → e.span.Shown source ∧ (Span.point e.offset).Shown source) ∧
    ∀ s, read source = .ok s → ∀ c start e, decode c start s = .error e → e.span.Shown source := by
  refine ⟨fun e h => ?_, fun e h => ?_, fun s hread c start e h => ?_⟩
  · obtain ⟨ls, rest, hitems⟩ := mapM_id_eq_error h
    exact (fits_stray hitems).shown
  · exact ⟨(fits_of_read h).shown, (fits_of_read h).point.shown⟩
  · exact (fits_of_decode hread h).shown

/-- A note too high for its scale, behind a comment, with its last mark on another line. -/
theorem faults_shown_note : ∃ s e,
    read "0 // ♪\n1 9223372036854775807\n^".toList = .ok s ∧ decode plainSetting 0 s = .error e ∧
    e.span.Shown "0 // ♪\n1 9223372036854775807\n^".toList ∧
    e.span.underline? "0 // ♪\n1 9223372036854775807\n^".toList =
      some "1 9223372036854775807\n  ^^^^^^^^^^^^^^^^^^^" := by
  have hfault : ((read "0 // ♪\n1 9223372036854775807\n^".toList).toOption.bind fun s =>
      match decode plainSetting 0 s with
      | .ok _ => none
      | .error e => some e.span) = some ⟨11, 32⟩ := by decide +kernel
  obtain ⟨s, hread, hfault⟩ := Option.bind_eq_some_iff.1 hfault
  have hread := toOption_eq_some.1 hread
  cases hdecode : decode plainSetting 0 s with
  | ok events =>
    rw [hdecode] at hfault
    cases hfault
  | error e =>
    rw [hdecode] at hfault
    have hspan : e.span = ⟨11, 32⟩ := Option.some.inj hfault
    refine ⟨s, e, hread, hdecode, faults_shown.2.2 s hread plainSetting 0 e hdecode, ?_⟩
    rw [hspan]
    decide +kernel

end Stave.Score
