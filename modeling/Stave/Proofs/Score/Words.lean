import Stave.Proofs.Score.Cut
import Stave.Proofs.Score.Spelt
import Stave.Score.Printer

/-!
# The words of a printed score

What a score is printed as, word by word.  The printed text is cut into exactly these words.

    (∀ n ∈ s.elements, n.Spelt) → Cuts s.text.toList s.words Stops        (Sequence.cuts_text)
-/

namespace Stave.Score

open Stave.Text

def numberWord (n : Int) : Word := (.number, (toString n).toList)

def Tone.word : Tone → Word
  | .degree n => numberWord n
  | .named name => (.noteName, (toString name).toList)

def durationWords (q : Ratio) : List Word :=
  if q = 1 then []
  else if q.num = 1 then [Token.divide.word, numberWord q.den]
  else if q.den = 1 then [Token.multiply.word, numberWord q.num]
  else [Token.multiply.word, numberWord q.num, Token.divide.word, numberWord q.den]

def shiftToken (shift : Int) : Token := if 0 ≤ shift then .up else .down

def articulationToken? : Articulation → Option Token
  | .normal => none
  | .accent => some .accent
  | .staccato => some .staccato
  | .tenuto => some .tenuto

def articulationWords (as : List Articulation) : List Word :=
  (as.filterMap articulationToken?).map Token.word

def Note.words (n : Note) : List Word :=
  n.tone.word :: (durationWords n.duration ++
    List.replicate n.octaveShift.natAbs (shiftToken n.octaveShift).word ++
    articulationWords n.articulations)

mutual

def Node.words : Node → List Word
  | .sequence s => s.words
  | .group elements factor _ =>
    Token.openGroup.word :: elementWords elements ++ Token.closeGroup.word :: durationWords factor
  | .parallel voices factor _ =>
    Token.openParallel.word :: voiceWords voices ++ Token.closeParallel.word :: durationWords factor
  | .note n => n.words
  | .rest r => Token.rest.word :: durationWords r.duration

def Sequence.words : Sequence → List Word
  | ⟨elements, _⟩ => elementWords elements

def elementWords : List Node → List Word
  | [] => []
  | n :: ns => n.words ++ elementWords ns

def voiceWords : List Sequence → List Word
  | [] => []
  | [s] => s.words
  | s :: s' :: ss => s.words ++ Token.comma.word :: voiceWords (s' :: ss)

end

/-! ## Tones and marks -/

theorem stops_of_head {c : Char} {cs : List Char} (h : joins c = false) : Stops (c :: cs) := by
  intro d hd
  cases hd
  exact h

theorem cuts_numberWord (n : Int) : Cuts (toString n).toList [numberWord n] Stops :=
  cuts_number (isNumeral_toString n)

theorem toList_toString_name (name : NoteName) :
    (toString name).toList = name.letter ::
      (NoteName.accidentalText name.accidental ++ (NoteName.octaveText name.octave).toList) := by
  show (String.ofList _ ++ _).toList = _
  rw [String.toList_append, String.toList_ofList, List.cons_append]

theorem isAccidental_of_mem {accidental : Int} :
    ∀ c ∈ NoteName.accidentalText accidental, NoteName.isAccidental c = true := by
  intro c hc
  obtain ⟨-, rfl⟩ := List.mem_replicate.1 hc
  split <;> rfl

theorem octaveText_cases (octave : Option Int) :
    (NoteName.octaveText octave).toList = [] ∨ IsNumeral (NoteName.octaveText octave).toList := by
  cases octave with
  | none => exact .inl rfl
  | some n => exact .inr (isNumeral_toString n)

theorem Tone.Spelt.cuts {t : Tone} (h : t.Spelt) : Cuts (toString t).toList [t.word] Stops := by
  cases t with
  | degree n => exact cuts_numberWord n
  | named name =>
    show Cuts (toString name).toList [(.noteName, (toString name).toList)] Stops
    rw [toList_toString_name]
    exact cuts_name h.1 isAccidental_of_mem (octaveText_cases _)

theorem Tone.Spelt.begins {t : Tone} (h : t.Spelt) (rest : List Char) :
    Begins ((toString t).toList ++ rest) := by
  cases t with
  | degree n =>
    obtain ⟨ds, hne, hds, hn | hn⟩ := isNumeral_toString n
    · obtain ⟨c, ds, rfl⟩ := List.exists_cons_of_ne_nil hne
      refine ⟨c, ds ++ rest, congrArg (· ++ rest) hn, ?_⟩
      simp [isBlank, ne_of_isDigit (hds c (by simp))]
    · exact ⟨'-', ds ++ rest, congrArg (· ++ rest) hn, rfl⟩
  | named name =>
    refine ⟨name.letter, _, congrArg (· ++ rest) (toList_toString_name name), ?_⟩
    exact isBlank_of_letterClass? h.1

theorem cuts_divideWord (n : Nat) :
    Cuts ('/' :: (toString n).toList) [Token.divide.word, numberWord n] Stops := by
  have hn : (toString n).toList = (toString (n : Int)).toList := rfl
  refine cuts_divide.append (b := (toString n).toList) (cuts_numberWord n) fun rest _ => ?_
  obtain ⟨ds, hne, hds, h | h⟩ := isNumeral_toString n
  · obtain ⟨c, ds, rfl⟩ := List.exists_cons_of_ne_nil hne
    have hc : c ≠ '/' := ne_of_isDigit (hds c (by simp)) rfl
    rw [hn, h]
    simpa using hc
  · rw [hn, h]
    simp

/-- A symbol is cut off whatever follows it. -/
theorem cuts_symbol_append {t : Token} {c : Char} {b : List Char} {ws : List Word}
    {F : List Char → Prop} (h : t.symbol? = some c) (hc : c ≠ '/') (hb : Cuts b ws F) :
    Cuts (c :: b) (t.word :: ws) F :=
  (cuts_symbol h hc).append hb fun _ _ => trivial

theorem cuts_durationMark (q : Ratio) :
    Cuts (durationMark q).toList (durationWords q) Stops ∧ Stops (durationMark q).toList := by
  unfold durationMark durationWords
  split
  · exact ⟨.nil Stops, by simp [Stops]⟩
  · split
    · rw [String.toList_append]
      exact ⟨cuts_divideWord q.den, stops_of_head rfl⟩
    · rw [String.toList_append]
      refine ⟨?_, stops_of_head rfl⟩
      show Cuts ('@' :: (if q.den = 1 then toString q.num
        else toString q.num ++ "/" ++ toString q.den).toList) _ Stops
      split
      · exact cuts_symbol_append rfl (by decide) (cuts_numberWord q.num)
      · rw [String.toList_append, String.toList_append, List.append_assoc]
        refine cuts_symbol_append rfl (by decide) ?_
        exact (cuts_numberWord q.num).append (cuts_divideWord q.den) fun _ _ => stops_of_head rfl

theorem cuts_shiftMarks (shift : Int) :
    Cuts (shiftMarks shift).toList (List.replicate shift.natAbs (shiftToken shift).word) Stops ∧
      Stops (shiftMarks shift).toList := by
  rw [shiftMarks, String.toList_ofList, shiftToken]
  generalize shift.natAbs = k
  split <;>
  · induction k with
    | zero => exact ⟨.nil Stops, by simp [Stops]⟩
    | succ k ih =>
      rw [List.replicate_succ, List.replicate_succ]
      exact ⟨cuts_symbol_append rfl (by decide) ih.1, stops_of_head rfl⟩

theorem cuts_articulationMarks (as : List Articulation) :
    Cuts (articulationMarks as).toList (articulationWords as) Stops ∧
      Stops (articulationMarks as).toList := by
  rw [articulationMarks, String.toList_ofList, articulationWords]
  induction as with
  | nil => exact ⟨.nil Stops, by simp [Stops]⟩
  | cons a as ih =>
    cases a with
    | normal => exact ih
    | _ => exact ⟨cuts_symbol_append rfl (by decide) ih.1, stops_of_head rfl⟩

/-! ## Trees -/

theorem toList_text_note (n : Note) : n.text.toList = (toString n.tone).toList ++
    ((durationMark n.duration).toList ++ (shiftMarks n.octaveShift).toList ++
      (articulationMarks n.articulations).toList) := by
  simp only [Note.text, String.toList_append, List.append_assoc]

theorem Note.Spelt.cuts {n : Note} (h : n.Spelt) : Cuts n.text.toList n.words Stops := by
  rw [toList_text_note, Note.words]
  obtain ⟨hd, sd⟩ := cuts_durationMark n.duration
  obtain ⟨hs, ss⟩ := cuts_shiftMarks n.octaveShift
  obtain ⟨ha, sa⟩ := cuts_articulationMarks n.articulations
  have hmarks := (hd.append hs fun rest hr => ss.append hr).append ha fun rest hr => sa.append hr
  exact h.tone.cuts.append hmarks fun rest hr => ((sd.append ss).append sa).append hr

/-- What an element or a voice needs of its text. -/
structure Prints (text : List Char) (words : List Word) : Prop where
  cuts : Cuts text words Stops
  begins : ∀ rest, Begins (text ++ rest)

theorem prints_elements {ns : List Node} (hne : ns ≠ [])
    (h : ∀ n ∈ ns, Prints n.text.toList n.words) :
    Prints (String.intercalate " " (elementTexts ns)).toList (elementWords ns) := by
  induction ns with
  | nil => exact absurd rfl hne
  | cons n ns ih =>
    have hn := h n List.mem_cons_self
    cases ns with
    | nil => simpa [elementTexts, elementWords] using hn
    | cons m ns =>
      have hrest := ih (by simp) fun k hk => h k (List.mem_cons_of_mem _ hk)
      have e : (String.intercalate " " (elementTexts (n :: m :: ns))).toList =
          n.text.toList ++ ([' '] ++ (String.intercalate " " (elementTexts (m :: ns))).toList) := by
        simp [elementTexts]
      rw [e, elementWords]
      have hblank := cuts_blank.append hrest.cuts fun rest _ => hrest.begins rest
      refine ⟨hn.cuts.append hblank fun rest _ => stops_of_head rfl, fun rest => ?_⟩
      rw [List.append_assoc]
      exact hn.begins _

theorem prints_voices {ss : List Sequence} (hne : ss ≠ [])
    (h : ∀ s ∈ ss, Prints s.text.toList s.words) :
    Prints (String.intercalate ", " (voiceTexts ss)).toList (voiceWords ss) := by
  induction ss with
  | nil => exact absurd rfl hne
  | cons s ss ih =>
    have hs := h s List.mem_cons_self
    cases ss with
    | nil => simpa [voiceTexts, voiceWords] using hs
    | cons t ss =>
      have hrest := ih (by simp) fun k hk => h k (List.mem_cons_of_mem _ hk)
      have e : (String.intercalate ", " (voiceTexts (s :: t :: ss))).toList = s.text.toList ++
          (',' :: ([' '] ++ (String.intercalate ", " (voiceTexts (t :: ss))).toList)) := by
        simp [voiceTexts]
      rw [e, voiceWords]
      have hblank := cuts_blank.append hrest.cuts fun rest _ => hrest.begins rest
      have hcomma : Cuts _ (Token.comma.word :: ([] ++ voiceWords (t :: ss))) Stops :=
        cuts_symbol_append rfl (by decide) hblank
      refine ⟨hs.cuts.append hcomma fun rest _ => stops_of_head rfl, fun rest => ?_⟩
      rw [List.append_assoc]
      exact hs.begins _

/-- Brackets, and a duration mark after them. -/
theorem prints_bracketed {openT closeT : Token} {o c : Char} {inner : List Char} {ws : List Word}
    (ho : openT.symbol? = some o) (hc : closeT.symbol? = some c) (hos : o ≠ '/') (hcs : c ≠ '/')
    (hob : isBlank o = false) (hcj : joins c = false) (h : Cuts inner ws Stops) (q : Ratio) :
    Prints (o :: inner ++ c :: (durationMark q).toList)
      (openT.word :: ws ++ closeT.word :: durationWords q) := by
  have hclose := cuts_symbol_append hc hcs (cuts_durationMark q).1
  have hinner := h.append hclose fun rest _ => stops_of_head hcj
  exact ⟨cuts_symbol_append ho hos hinner, fun rest => ⟨o, _, rfl, hob⟩⟩

theorem Node.Spelt.prints {n : Node} (h : n.Spelt) : Prints n.text.toList n.words := by
  induction h with
  | @note n h =>
    refine ⟨h.cuts, fun rest => ?_⟩
    show Begins (n.text.toList ++ rest)
    rw [toList_text_note, List.append_assoc]
    exact h.tone.begins _
  | @rest r h =>
    have e : (Node.rest r).text.toList = '~' :: (durationMark r.duration).toList := by
      simp [Node.text]
    rw [e]
    exact ⟨cuts_symbol_append rfl (by decide) (cuts_durationMark _).1, fun rest => ⟨'~', _, rfl, rfl⟩⟩
  | @group elements factor span some each h ih =>
    have e : (Node.group elements factor span).text.toList =
        '(' :: (String.intercalate " " (elementTexts elements)).toList ++
          ')' :: (durationMark factor).toList := by
      simp [Node.text]
    rw [e]
    exact prints_bracketed rfl rfl (by decide) (by decide) rfl rfl (prints_elements some ih).cuts factor
  | @parallel voices factor span some someEach each h ih =>
    have e : (Node.parallel voices factor span).text.toList =
        '[' :: (String.intercalate ", " (voiceTexts voices)).toList ++
          ']' :: (durationMark factor).toList := by
      simp [Node.text]
    have hvoices : ∀ s ∈ voices, Prints s.text.toList s.words := by
      intro s hs
      have helements := prints_elements (someEach s hs) (ih s hs)
      obtain ⟨elements, span⟩ := s
      exact helements
    rw [e]
    exact prints_bracketed rfl rfl (by decide) (by decide) rfl rfl (prints_voices some hvoices).cuts factor

theorem Sequence.cuts_text {s : Sequence} (h : ∀ n ∈ s.elements, n.Spelt) :
    Cuts s.text.toList s.words Stops := by
  obtain ⟨elements, span⟩ := s
  cases elements with
  | nil => exact .nil Stops
  | cons n ns => exact (prints_elements (by simp) fun m hm => (h m hm).prints).cuts

end Stave.Score
