import Stave.Proofs.Numeral
import Stave.Score.Lexer

/-!
# Texts that are cut into given words

A word is a token with its text.  `Cuts` says that a text is cut into some words, and nothing else,
before whatever may follow it; such texts can be joined when the second may follow the first.

    Cuts a ws F → Cuts b vs G → (∀ rest, G rest → F (b ++ rest)) → Cuts (a ++ b) (ws ++ vs) G
-/

namespace Stave.Score

open Stave.Text

abbrev Word := Token × List Char

def Lexeme.word (l : Lexeme) : Word := (l.token, l.text)

/-- A token that is always spelled the same way. -/
def Token.word (t : Token) : Word := (t, t.symbol?.toList)

/-- The items of a text that begins at an offset. -/
def itemsFrom (offset : Nat) (cs : List Char) : List Item := (segments offset cs).filterMap Segment.item?

/-- The text is cut into the words whenever something of a certain kind follows. -/
def Cuts (text : List Char) (words : List Word) (follow : List Char → Prop) : Prop :=
  ∀ rest, follow rest → ∀ offset, ∃ ls : List Lexeme, ls.map Lexeme.word = words ∧
    itemsFrom offset (text ++ rest) = ls.map .ok ++ itemsFrom (offset + byteLength text) rest

/-- A character that a number or a name before it could swallow. -/
def joins (c : Char) : Bool := c.isDigit || c = '.' || c = '-' || NoteName.isAccidental c

/-- A text that no number or name before it swallows. -/
def Stops (cs : List Char) : Prop := ∀ c ∈ cs.head?, joins c = false

/-- A text that a blank before it does not swallow. -/
def Begins (cs : List Char) : Prop := ∃ c tail, cs = c :: tail ∧ isBlank c = false

def Anything (_ : List Char) : Prop := True

/-! ## Joining -/

theorem Cuts.nil (follow : List Char → Prop) : Cuts [] [] follow :=
  fun _ _ _ => ⟨[], rfl, rfl⟩

theorem Cuts.append {a b : List Char} {ws vs : List Word} {F G : List Char → Prop}
    (ha : Cuts a ws F) (hb : Cuts b vs G) (h : ∀ rest, G rest → F (b ++ rest)) :
    Cuts (a ++ b) (ws ++ vs) G := by
  intro rest hrest offset
  obtain ⟨ls, hls, ea⟩ := ha (b ++ rest) (h rest hrest) offset
  obtain ⟨ms, hms, eb⟩ := hb rest hrest (offset + byteLength a)
  refine ⟨ls ++ ms, by rw [List.map_append, hls, hms], ?_⟩
  rw [List.append_assoc, ea, eb, byteLength_append, List.map_append, List.append_assoc, Nat.add_assoc]

theorem Stops.append {a b : List Char} (ha : Stops a) (hb : Stops b) : Stops (a ++ b) := by
  cases a with
  | nil => exact hb
  | cons c a => exact ha

theorem Stops.head {cs : List Char} (h : Stops cs) {test : Char → Bool}
    (htest : ∀ c, test c = true → joins c = true) : ∀ c ∈ cs.head?, test c = false := by
  intro c hc
  have := h c hc
  cases ht : test c
  · rfl
  · rw [htest c ht] at this
    cases this

/-! ## One segment -/

/-- A text whose first character fails a test has no run of characters that pass it. -/
theorem takeWhile_of_head {test : Char → Bool} {cs : List Char} (h : ∀ c ∈ cs.head?, test c = false) :
    cs.takeWhile test = [] ∧ cs.dropWhile test = cs := by
  cases cs with
  | nil => exact ⟨rfl, rfl⟩
  | cons c cs => simp [h c rfl]

theorem runLength_append {test : Char → Bool} {a rest : List Char} (ha : ∀ c ∈ a, test c = true)
    (hrest : ∀ c ∈ rest.head?, test c = false) : runLength test (a ++ rest) = a.length := by
  rw [runLength, List.takeWhile_append_of_pos ha, (takeWhile_of_head hrest).1, List.append_nil]

theorem segments_cons (offset : Nat) (c : Char) (tail rest : List Char) {kind : SegmentKind}
    (h : segmentAt c (tail ++ rest) = (kind, tail.length)) :
    segments offset (c :: tail ++ rest) =
      ⟨kind, offset, c :: tail⟩ :: segments (offset + byteLength (c :: tail)) rest := by
  rw [List.cons_append, segments]
  simp [h]

theorem Segment.item?_token {t : Token} (ht : t ≠ .comment) (offset : Nat) (text : List Char) :
    (Segment.mk (.token t) offset text).item? =
      some (.ok ⟨t, ⟨offset, offset + byteLength text⟩, text⟩) := by
  cases t <;> first | rfl | exact absurd rfl ht

theorem cuts_token {t : Token} {c : Char} {tail : List Char} {F : List Char → Prop}
    (ht : t ≠ .comment) (h : ∀ rest, F rest → segmentAt c (tail ++ rest) = (.token t, tail.length)) :
    Cuts (c :: tail) [(t, c :: tail)] F := by
  intro rest hrest offset
  refine ⟨[⟨t, ⟨offset, offset + byteLength (c :: tail)⟩, c :: tail⟩], rfl, ?_⟩
  rw [itemsFrom, segments_cons offset c tail rest (h rest hrest), List.filterMap_cons,
    Segment.item?_token ht]
  rfl

theorem cuts_blank : Cuts [' '] [] Begins := by
  intro rest hrest offset
  obtain ⟨c, tail, rfl, hc⟩ := hrest
  have h : segmentAt ' ' ([] ++ c :: tail) = (.blank, 0) := by
    have hrun : runLength isBlank ([] ++ c :: tail) = 0 :=
      runLength_append (by simp) (by simpa using hc)
    rw [segmentAt, if_pos (by decide), hrun]
  refine ⟨[], rfl, ?_⟩
  rw [itemsFrom, segments_cons offset ' ' [] (c :: tail) h]
  rfl

/-! ## Symbols -/

theorem segmentAt_symbol {t : Token} {c : Char} {rest : List Char} (h : t.symbol? = some c)
    (hc : c = '/' → rest.head? ≠ some '/') : segmentAt c rest = (.token t, 0) := by
  cases t <;> cases h
  case divide =>
    have hrest := hc rfl
    rw [segmentAt, if_neg (by decide), if_neg fun h => hrest h.2]
    rfl
  all_goals rfl

theorem cuts_symbol {t : Token} {c : Char} (h : t.symbol? = some c) (hc : c ≠ '/') :
    Cuts [c] [t.word] Anything := by
  rw [Token.word, h]
  refine cuts_token (fun ht => ?_) fun rest _ => segmentAt_symbol h fun e => absurd e hc
  rw [ht] at h
  cases h

theorem cuts_divide : Cuts ['/'] [Token.divide.word] fun rest => rest.head? ≠ some '/' :=
  cuts_token (by decide) fun _ hrest => segmentAt_symbol rfl fun _ => hrest

/-! ## What stops a run -/

theorem Stops.runLength_isDigit {rest : List Char} (h : Stops rest) : runLength Char.isDigit rest = 0 :=
  runLength_append (a := []) (by simp) (h.head fun c hc => by simp [joins, hc])

theorem Stops.signedLength {rest : List Char} (h : Stops rest) : signedLength rest = 0 := by
  unfold Score.signedLength
  split
  · have := h '-' (by simp)
    cases this
  · exact h.runLength_isDigit

theorem Stops.placesLength {rest : List Char} (h : Stops rest) : placesLength rest = 0 := by
  unfold Score.placesLength
  split
  · have := h '.' (by simp)
    cases this
  · rfl

/-! ## Numbers -/

theorem signedLength_append {cs rest : List Char} (h : IsNumeral cs) (hrest : Stops rest) :
    signedLength (cs ++ rest) = cs.length := by
  obtain ⟨ds, hne, hds, h⟩ := h
  have hrun : runLength Char.isDigit (ds ++ rest) = ds.length :=
    runLength_append hds (hrest.head fun c hc => by simp [joins, hc])
  obtain ⟨c, ds, rfl⟩ := List.exists_cons_of_ne_nil hne
  rcases h with rfl | rfl
  · have hc : c ≠ '-' := ne_of_isDigit (hds c (by simp)) rfl
    unfold signedLength
    split
    · next heq => cases heq; exact absurd rfl hc
    · exact hrun
  · rw [List.cons_append, signedLength, hrun]
    rfl

theorem numberLength_append {cs rest : List Char} (h : IsNumeral cs) (hrest : Stops rest) :
    numberLength (cs ++ rest) = cs.length := by
  have hs := signedLength_append h hrest
  unfold numberLength
  split
  · next h0 => rw [← hs, h0]
  · next hn =>
    rw [hs, List.drop_left, hrest.placesLength]
    rfl

/-- Only a number begins with a minus sign or a digit. -/
theorem segmentAt_digit {c : Char} (hc : c = '-' ∨ c.isDigit = true) {tail : List Char} {n : Nat}
    (hn : numberLength (c :: tail) = n + 1) : segmentAt c tail = (.token .number, n) := by
  have hblank : isBlank c = false := by
    rcases hc with rfl | hc
    · rfl
    · simp [isBlank, ne_of_isDigit hc]
  have hslash : c ≠ '/' := by
    rcases hc with rfl | hc
    · decide
    · exact ne_of_isDigit hc rfl
  have hletter : letterClass? c = none := by
    unfold letterClass?
    rcases hc with rfl | hc
    · rfl
    · split <;> first | rfl | exact absurd hc (by decide)
  rw [segmentAt, hblank, if_neg (by decide), if_neg fun h => hslash h.1, hletter,
    if_neg (by decide), hn]

theorem segmentAt_number {c : Char} {tail rest : List Char} (h : IsNumeral (c :: tail))
    (hrest : Stops rest) : segmentAt c (tail ++ rest) = (.token .number, tail.length) :=
  segmentAt_digit h.first (numberLength_append h hrest)

theorem cuts_number {cs : List Char} (h : IsNumeral cs) : Cuts cs [(.number, cs)] Stops := by
  obtain ⟨c, tail, rfl⟩ := List.exists_cons_of_ne_nil h.ne_nil
  exact cuts_token (by decide) fun rest hrest => segmentAt_number h hrest

/-! ## Names -/

theorem isBlank_of_letterClass? {c : Char} (h : (letterClass? c).isSome) : isBlank c = false := by
  cases hb : isBlank c
  · rfl
  · simp only [isBlank, Bool.or_eq_true, decide_eq_true_eq] at hb
    rcases hb with ((rfl | rfl) | rfl) | rfl <;> cases h

/-- What begins with a letter of the scale is a name. -/
theorem segmentAt_letter {letter : Char} (hl : (letterClass? letter).isSome) (cs : List Char) :
    segmentAt letter cs = (.token .noteName, nameTailLength cs) := by
  have hslash : letter ≠ '/' := by
    rintro rfl
    cases hl
  rw [segmentAt, isBlank_of_letterClass? hl, if_neg (by decide), if_neg fun h => hslash h.1,
    if_pos hl]

/-- No accidental goes on into a numeral. -/
theorem markless_numeral {cs : List Char} (h : IsNumeral cs) (rest : List Char) :
    ∀ c ∈ (cs ++ rest).head?, NoteName.isAccidental c = false := by
  obtain ⟨d, tail, rfl⟩ := List.exists_cons_of_ne_nil h.ne_nil
  intro c hc
  cases hc
  rcases h.first with rfl | hd
  · rfl
  · simp [NoteName.isAccidental, ne_of_isDigit hd]

theorem segmentAt_name {letter : Char} {marks octave rest : List Char}
    (hl : (letterClass? letter).isSome) (hm : ∀ c ∈ marks, NoteName.isAccidental c = true)
    (ho : octave = [] ∨ IsNumeral octave) (hrest : Stops rest) :
    segmentAt letter (marks ++ octave ++ rest) = (.token .noteName, (marks ++ octave).length) := by
  have hsigned : signedLength (octave ++ rest) = octave.length := by
    rcases ho with rfl | ho
    · exact hrest.signedLength
    · exact signedLength_append ho hrest
  have hhead : ∀ c ∈ (octave ++ rest).head?, NoteName.isAccidental c = false := by
    rcases ho with rfl | ho
    · exact hrest.head fun c hc => by simp [joins, hc]
    · exact markless_numeral ho rest
  rw [segmentAt_letter hl, nameTailLength, List.append_assoc, runLength_append hm hhead,
    List.drop_left, hsigned, List.length_append]

theorem cuts_name {letter : Char} {marks octave : List Char} (hl : (letterClass? letter).isSome)
    (hm : ∀ c ∈ marks, NoteName.isAccidental c = true) (ho : octave = [] ∨ IsNumeral octave) :
    Cuts (letter :: (marks ++ octave)) [(.noteName, letter :: (marks ++ octave))] Stops :=
  cuts_token (by decide) fun _ hrest => segmentAt_name hl hm ho hrest

end Stave.Score
