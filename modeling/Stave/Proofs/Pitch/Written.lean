import Stave.Proofs.Score.Amounts

/-!
# Note names as they are written

A written name is a letter from A to G, accidentals, and perhaps an octave.  Those whose octave has
no plus sign are the words of the pattern of a name, and the texts in which the lexer finds one name
and nothing else.  The reader takes each written name whose octave 32 bits hold, a plus sign or none,
and no other text.

    Numeral.integer? w cs = some n ↔ n is written as cs, and w holds n       (integer?_eq_some_iff)
    cs ∈ Token.noteName.language ↔ a name without a plus sign is written cs  (mem_noteName)
      ↔ tokenize cs = .ok [one name]                                         (mem_noteName_iff)
    NoteName.read? cs = some n ↔ n is written as cs, and its octave fits     (read?_eq_some_iff)
    texts, tokens and names together                                         (names_read)
-/

namespace Stave

/-! ## Signed digits -/

inductive Sign where
  | none
  | minus
  | plus
deriving DecidableEq

def Sign.text : Sign → List Char
  | none => []
  | minus => ['-']
  | plus => ['+']

def Sign.apply : Sign → Nat → Int
  | minus, n => -n
  | none, n | plus, n => n

/-- The sign that a text begins with. -/
def Sign.ofHead : Option Char → Sign
  | some '-' => minus
  | some '+' => plus
  | _ => none

/-- At least one digit, perhaps after a sign. -/
structure SignedDigits where
  sign : Sign
  digits : List Char
  digits_ne_nil : digits ≠ []
  digits_isDigit : ∀ c ∈ digits, c.isDigit = true

namespace SignedDigits

def text (d : SignedDigits) : List Char := d.sign.text ++ d.digits

/-- The number that is spelt. -/
def value (d : SignedDigits) : Int := d.sign.apply (Nat.ofDigitChars 10 d.digits 0)

theorem natural?_digits (d : SignedDigits) :
    Numeral.natural? d.digits = some (Nat.ofDigitChars 10 d.digits 0) :=
  if_pos ⟨d.digits_ne_nil, List.all_eq_true.2 d.digits_isDigit⟩

theorem integer?_text (w : Width) (d : SignedDigits) :
    Numeral.integer? w d.text = w.narrow? d.value := by
  have hnatural := d.natural?_digits
  obtain ⟨sign, digits, hne, hdigits⟩ := d
  cases sign with
  | none =>
    obtain ⟨c, cs, rfl⟩ := List.exists_cons_of_ne_nil hne
    show Numeral.integer? w (c :: cs) = _
    rw [Numeral.integer?_of_head_isDigit w (hdigits c List.mem_cons_self), hnatural]
    rfl
  | minus =>
    show (Numeral.natural? digits >>= fun n => w.narrow? (-n)) = _
    rw [hnatural]
    rfl
  | plus =>
    show (Numeral.natural? digits >>= fun n => w.narrow? n) = _
    rw [hnatural]
    rfl

theorem text_ne_nil (d : SignedDigits) : d.text ≠ [] :=
  List.append_ne_nil_of_right_ne_nil _ d.digits_ne_nil

/-- The sign shows in the first character. -/
theorem ofHead_text (d : SignedDigits) : Sign.ofHead d.text.head? = d.sign := by
  obtain ⟨sign, digits, hne, hdigits⟩ := d
  cases sign with
  | minus => rfl
  | plus => rfl
  | none =>
    obtain ⟨c, cs, rfl⟩ := List.exists_cons_of_ne_nil hne
    have hc := hdigits c List.mem_cons_self
    show Sign.ofHead (some c) = .none
    unfold Sign.ofHead
    split
    · next h =>
      cases h
      exact absurd hc (by decide)
    · next h =>
      cases h
      exact absurd hc (by decide)
    · rfl

/-- Signed digits are spelt in one way only. -/
theorem text_injective : Function.Injective text := by
  intro a b h
  have hsign : a.sign = b.sign := by rw [← a.ofHead_text, h, b.ofHead_text]
  obtain ⟨sign, digits, hne, hdigits⟩ := a
  obtain rfl : sign = b.sign := hsign
  obtain rfl : digits = b.digits := List.append_cancel_left h
  rfl

/-- No accidental goes on into signed digits. -/
theorem isAccidental_head (d : SignedDigits) :
    ∀ c ∈ d.text.head?, NoteName.isAccidental c = false := by
  obtain ⟨_ | _ | _, digits, hne, hdigits⟩ := d
  · obtain ⟨d, ds, rfl⟩ := List.exists_cons_of_ne_nil hne
    intro c hc
    cases hc
    simp [NoteName.isAccidental, ne_of_isDigit (hdigits _ List.mem_cons_self)]
  · intro c hc
    cases hc
    rfl
  · intro c hc
    cases hc
    rfl

end SignedDigits

theorem exists_digits {cs : List Char} {m : Nat} (h : Numeral.natural? cs = some m) (sign : Sign) :
    ∃ d : SignedDigits, d.text = sign.text ++ cs ∧ d.value = sign.apply m := by
  obtain ⟨⟨hne, hdigits⟩, hm⟩ := Option.ite_none_right_eq_some.1 h
  cases hm
  exact ⟨⟨sign, cs, hne, List.all_eq_true.1 hdigits⟩, rfl, rfl⟩

/-- What an integer is: signed digits, and a number that the width holds. -/
theorem integer?_eq_some_iff {w : Width} {cs : List Char} {n : Int} :
    Numeral.integer? w cs = some n ↔ ∃ d : SignedDigits, d.text = cs ∧ d.value = n ∧ w.Holds n := by
  constructor
  · intro h
    have hholds := Numeral.holds_of_integer? h
    unfold Numeral.integer? at h
    split at h <;> obtain ⟨m, hm, hn⟩ := Option.bind_eq_some_iff.1 h <;>
      obtain ⟨rfl, -⟩ := Width.narrow?_eq_some_iff.1 hn
    · obtain ⟨d, htext, hvalue⟩ := exists_digits hm .minus
      exact ⟨d, htext, hvalue, hholds⟩
    · obtain ⟨d, htext, hvalue⟩ := exists_digits hm .plus
      exact ⟨d, htext, hvalue, hholds⟩
    · obtain ⟨d, htext, hvalue⟩ := exists_digits hm .none
      exact ⟨d, htext, hvalue, hholds⟩
  · rintro ⟨d, rfl, rfl, hholds⟩
    rw [d.integer?_text, Width.narrow?_of_holds hholds]

/-! ## Written names -/

structure WrittenName where
  letter : Char
  marks : List Char
  octave : Option SignedDigits
  letter_le : 'A' ≤ letter ∧ letter ≤ 'G'
  marks_isAccidental : ∀ c ∈ marks, NoteName.isAccidental c = true

namespace WrittenName

/-- What follows the accidentals. -/
def tail (w : WrittenName) : List Char := w.octave.elim [] SignedDigits.text

def text (w : WrittenName) : List Char := w.letter :: (w.marks ++ w.tail)

/-- The name that is spelt, its accidentals counted without a bound. -/
def name (w : WrittenName) : NoteName where
  letter := w.letter
  accidental := w.marks.count '#' - w.marks.count 'b'
  octave := w.octave.map SignedDigits.value

/-- The octave, if there is one, is a number of 32 bits. -/
def Fits (w : WrittenName) : Prop := ∀ d ∈ w.octave, Width.int32.Holds d.value

/-- The octave, if there is one, has no plus sign. -/
def Plain (w : WrittenName) : Prop := ∀ d ∈ w.octave, d.sign ≠ .plus

theorem isAccidental_tail (w : WrittenName) : ∀ c ∈ w.tail.head?, NoteName.isAccidental c = false := by
  rw [tail]
  cases w.octave with
  | none => exact fun c hc => absurd hc (Option.not_mem_none c)
  | some d => exact d.isAccidental_head

theorem octaveOf?_tail {w : WrittenName} {octave : Option Int} :
    NoteName.octaveOf? w.tail = some octave ↔ w.Fits ∧ octave = w.octave.map SignedDigits.value := by
  rw [tail, Fits]
  cases w.octave with
  | none => simp [NoteName.octaveOf?, eq_comm]
  | some d =>
    have hinteger : NoteName.octaveOf? d.text = (Numeral.integer? .int32 d.text).map some := by
      obtain ⟨c, cs, hcs⟩ := List.exists_cons_of_ne_nil d.text_ne_nil
      rw [hcs, NoteName.octaveOf?]
      exact List.cons_ne_nil c cs
    show NoteName.octaveOf? d.text = _ ↔ _
    rw [hinteger, d.integer?_text, Option.map_eq_some_iff]
    simp only [Width.narrow?_eq_some_iff, Option.mem_some_iff, forall_eq', Option.map_some]
    constructor
    · rintro ⟨n, ⟨rfl, hholds⟩, rfl⟩
      exact ⟨hholds, rfl⟩
    · rintro ⟨hholds, rfl⟩
      exact ⟨_, ⟨rfl, hholds⟩, rfl⟩

/-- A name is written in one way only. -/
theorem text_injective : Function.Injective text := by
  intro v w h
  have hmarks : ∀ x : WrittenName, (x.marks ++ x.tail).takeWhile NoteName.isAccidental = x.marks := by
    intro x
    rw [List.takeWhile_append_of_pos x.marks_isAccidental,
      (Score.takeWhile_of_head x.isAccidental_tail).1, List.append_nil]
  obtain ⟨hletter, hrest⟩ := List.cons.inj h
  have hsame : v.marks = w.marks := by rw [← hmarks v, hrest, hmarks w]
  have htail : v.tail = w.tail := by
    rw [hsame] at hrest
    exact List.append_cancel_left hrest
  have hoctave : v.octave = w.octave := by
    rw [tail, tail] at htail
    cases hv : v.octave with
    | none =>
      rw [hv] at htail
      cases hw : w.octave with
      | none => rfl
      | some d =>
        rw [hw] at htail
        exact absurd htail.symm d.text_ne_nil
    | some d =>
      rw [hv] at htail
      cases hw : w.octave with
      | none =>
        rw [hw] at htail
        exact absurd htail d.text_ne_nil
      | some e =>
        rw [hw] at htail
        rw [SignedDigits.text_injective htail]
  cases v
  cases w
  cases hletter
  cases hsame
  cases hoctave
  rfl

/-- The net accidental is no more than there are marks. -/
theorem net_le (w : WrittenName) : w.name.accidental.natAbs ≤ w.text.countP NoteName.isAccidental := by
  have hsharps : w.marks.count '#' ≤ w.marks.length := List.count_le_length
  have hflats : w.marks.count 'b' ≤ w.marks.length := List.count_le_length
  have hmarks : w.marks.length ≤ w.text.countP NoteName.isAccidental := by
    have hsub : w.marks.Sublist w.text :=
      (List.sublist_append_left w.marks w.tail).trans (List.sublist_cons_self _ _)
    rw [← List.countP_eq_length.2 w.marks_isAccidental]
    exact hsub.countP_le
  show ((w.marks.count '#' : Int) - w.marks.count 'b').natAbs ≤ _
  omega

/-- So few marks are counted exactly. -/
theorem wrap_accidental (w : WrittenName) (h : w.text.countP NoteName.isAccidental < 2 ^ 31) :
    Width.int32.wrap w.name.accidental = w.name.accidental := by
  have hle := w.net_le
  refine Width.wrap_of_holds ?_
  simp only [Width.Holds, Width.int32]
  omega

end WrittenName

/-- Reading takes a text apart as it was written. -/
theorem read?_eq_some_iff {cs : List Char} {n : NoteName} : NoteName.read? cs = some n ↔
    ∃ w : WrittenName, w.text = cs ∧ w.Fits ∧
      n = { w.name with accidental := Width.int32.wrap w.name.accidental } := by
  constructor
  · intro h
    cases cs with
    | nil => cases h
    | cons letter cs =>
      obtain ⟨pitch, hletter, h⟩ := Option.bind_eq_some_iff.1 h
      obtain ⟨octave, hoctave, h⟩ := Option.bind_eq_some_iff.1 h
      cases h
      have hle := Score.letterClass?_isSome.1 (Option.isSome_of_eq_some hletter)
      have hmarks : ∀ c ∈ cs.takeWhile NoteName.isAccidental, NoteName.isAccidental c = true :=
        fun c hc => List.mem_takeWhile_imp hc
      -- the rest is empty or an integer
      obtain ⟨digits, htail⟩ : ∃ digits : Option SignedDigits,
          digits.elim [] SignedDigits.text = cs.dropWhile NoteName.isAccidental := by
        cases hrest : cs.dropWhile NoteName.isAccidental with
        | nil => exact ⟨none, rfl⟩
        | cons c rest =>
          rw [hrest] at hoctave
          obtain ⟨m, hm, -⟩ := Option.map_eq_some_iff.1 hoctave
          obtain ⟨d, htext, -⟩ := integer?_eq_some_iff.1 hm
          exact ⟨some d, htext⟩
      let w : WrittenName := ⟨letter, _, digits, hle, hmarks⟩
      have hw : NoteName.octaveOf? w.tail = some octave := (congrArg _ htail).trans hoctave
      obtain ⟨hfits, rfl⟩ := WrittenName.octaveOf?_tail.1 hw
      refine ⟨w, ?_, hfits, rfl⟩
      show letter :: (cs.takeWhile NoteName.isAccidental ++ digits.elim [] SignedDigits.text) = _
      rw [htail, List.takeWhile_append_dropWhile]
  · rintro ⟨w, rfl, hfits, rfl⟩
    obtain ⟨pitch, hletter⟩ := Option.isSome_iff_exists.1 (Score.letterClass?_isSome.2 w.letter_le)
    obtain ⟨htake, hdrop⟩ := Score.takeWhile_of_head w.isAccidental_tail
    have hoctave : NoteName.octaveOf? w.tail = some _ := WrittenName.octaveOf?_tail.2 ⟨hfits, rfl⟩
    rw [WrittenName.text, NoteName.read?, List.takeWhile_append_of_pos w.marks_isAccidental,
      List.dropWhile_append_of_pos w.marks_isAccidental, htake, hdrop, hoctave, List.append_nil]
    show (letterClass? w.letter).bind _ = _
    rw [hletter]
    rfl

/-! ## The pattern of a name -/

namespace Score

open Stave.Text

variable {cs : List Char}

theorem mem_signed_iff : cs ∈ signed ↔ ∃ d : SignedDigits, d.text = cs ∧ d.sign ≠ .plus := by
  rw [mem_signed]
  constructor
  · rintro ⟨ds, hne, hds, rfl | rfl⟩
    · exact ⟨⟨.none, cs, hne, hds⟩, rfl, nofun⟩
    · exact ⟨⟨.minus, ds, hne, hds⟩, rfl, nofun⟩
  · rintro ⟨⟨sign, ds, hne, hds⟩, rfl, hsign⟩
    cases sign with
    | none => exact ⟨ds, hne, hds, .inl rfl⟩
    | minus => exact ⟨ds, hne, hds, .inr rfl⟩
    | plus => exact absurd rfl hsign

/-- The pattern of a name is that of the written names without a plus sign. -/
theorem mem_noteName : cs ∈ Token.noteName.language ↔ ∃ w : WrittenName, w.text = cs ∧ w.Plain := by
  rw [Token.language, mem_one_mul]
  constructor
  · rintro ⟨letter, _, hletter, htail, rfl⟩
    obtain ⟨marks, hmarks, octave, hoctave, rfl⟩ := Language.mem_mul.1 htail
    rcases hoctave with hoctave | hoctave
    · rw [(Language.mem_one _).1 hoctave]
      exact ⟨⟨letter, marks, none, of_decide_eq_true hletter, mem_run.1 hmarks⟩, rfl,
        fun d hd => absurd hd (Option.not_mem_none d)⟩
    · obtain ⟨d, rfl, hsign⟩ := mem_signed_iff.1 hoctave
      refine ⟨⟨letter, marks, some d, of_decide_eq_true hletter, mem_run.1 hmarks⟩, rfl, ?_⟩
      rintro _ ⟨⟩
      exact hsign
  · rintro ⟨⟨letter, marks, octave, hletter, hmarks⟩, rfl, hplain⟩
    refine ⟨letter, _, decide_eq_true hletter, Language.append_mem_mul (mem_run.2 hmarks) ?_, rfl⟩
    cases octave with
    | none => exact .inl rfl
    | some d => exact .inr (mem_signed_iff.2 ⟨d, rfl, hplain d rfl⟩)

/-- A text is in the pattern if the lexer finds one name in it that reaches over all of it. -/
theorem mem_noteName_iff : cs ∈ Token.noteName.language ↔
    tokenize cs = .ok [⟨.noteName, ⟨0, byteLength cs⟩, cs⟩] := by
  constructor
  · intro h
    have hlongest : Longest (.token .noteName) cs [] := by
      refine ⟨h, fun kind word _ hword => ?_⟩
      rw [List.append_nil] at hword
      exact hword.length_le
    have hscanned := Scanned.lexeme (o := 0) (by decide) hlongest (.nil _)
    rw [List.append_nil, Nat.zero_add] at hscanned
    exact scanned_of_tokenize.2 hscanned
  · intro h
    have hitems := mapM_id_eq_ok h
    have hmem : .ok ⟨.noteName, ⟨0, byteLength cs⟩, cs⟩ ∈ itemsFrom 0 cs := by
      rw [itemsFrom, ← items, hitems]
      exact List.mem_cons_self
    exact mem_language_of_items hmem

/-- The reader of names and the lexer agree but for the plus sign.  The texts of the pattern are
those that are one name to the lexer, and those that are written as a name without a plus sign; no
text is written as two names.  The reader takes a text if it is written as a name, whatever its sign,
whose octave 32 bits hold, and answers with the name that is written. -/
theorem names_read (h : cs.countP NoteName.isAccidental < 2 ^ 31) :
    (cs ∈ Token.noteName.language ↔ tokenize cs = .ok [⟨.noteName, ⟨0, byteLength cs⟩, cs⟩]) ∧
    (cs ∈ Token.noteName.language ↔ ∃ w : WrittenName, w.text = cs ∧ w.Plain) ∧
    (∀ v w : WrittenName, v.text = cs → w.text = cs → v = w) ∧
    ∀ n, NoteName.read? cs = some n ↔ ∃ w : WrittenName, w.text = cs ∧ w.Fits ∧ n = w.name := by
  refine ⟨mem_noteName_iff, mem_noteName, fun v w hv hw => ?_, fun n => ?_⟩
  · exact WrittenName.text_injective (hv.trans hw.symm)
  · refine read?_eq_some_iff.trans (exists_congr fun w => and_congr_right fun hw => ?_)
    subst hw
    rw [w.wrap_accidental h]

/-- An octave below zero with zeros before it, and sharps and a flat that leave one sharp. -/
theorem names_read_below : "F#b#-007".toList.countP NoteName.isAccidental < 2 ^ 31 ∧
    tokenize "F#b#-007".toList = .ok [⟨.noteName, ⟨0, 8⟩, "F#b#-007".toList⟩] ∧
    NoteName.read? "F#b#-007".toList = some ⟨'F', 1, some (-7)⟩ := by
  have hfew : "F#b#-007".toList.countP NoteName.isAccidental < 2 ^ 31 := by decide
  obtain ⟨hlexer, hpattern, -, hread⟩ := names_read hfew
  let octave : SignedDigits := ⟨.minus, "007".toList, by decide, List.all_eq_true.1 rfl⟩
  let w : WrittenName := ⟨'F', "#b#".toList, some octave, by decide, List.all_eq_true.1 rfl⟩
  have hfits : w.Fits := by
    rintro _ ⟨⟩
    decide
  have hplain : w.Plain := by
    rintro _ ⟨⟩
    decide
  exact ⟨hfew, hlexer.1 (hpattern.2 ⟨w, rfl, hplain⟩), (hread _).2 ⟨w, rfl, hfits, rfl⟩⟩

/-- A plus sign before the octave is read, though no name of the lexer has one. -/
theorem plus_octave_read : NoteName.read? "C+4".toList = some ⟨'C', 0, some 4⟩ ∧
    "C+4".toList ∉ Token.noteName.language ∧ tokenize "C+4".toList = .error ⟨1, '+'⟩ := by
  have hstray : tokenize "C+4".toList = .error ⟨1, '+'⟩ := by decide +kernel
  refine ⟨by decide +kernel, fun h => ?_, hstray⟩
  rw [mem_noteName_iff, hstray] at h
  cases h

end Score

end Stave
