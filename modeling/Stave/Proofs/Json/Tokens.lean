import Mathlib.Control.Basic
import Mathlib.Data.Option.Basic
import Mathlib.Tactic.SplitIfs
import Stave.Json.Lexer
import Stave.Json.Printer
import Stave.Proofs.Numeral

/-!
# The tokens of printed JSON

A text lexes as some tokens if it is cut into them and nothing else, whatever follows it that a
numeral at its end cannot go on into.  Such texts can be joined, and what is printed for a scalar
is one of them.

    Lexes a ts → Lexes b us → Parted b → Lexes (a ++ b) (ts ++ us)         (Lexes.append)
    Lexes (quoted s).toList [.scalar (.string s)]                          (lexes_quoted)
    Lexes (toString n).toList [.scalar (.integer n)]                       (lexes_integer)
-/

namespace Stave.Json

/-- Text that no numeral before it goes on into. -/
def Parted (rest : List Char) : Prop :=
  ∀ c ∈ rest.head?, c.isDigit = false ∧ c ≠ '.' ∧ c ≠ 'e' ∧ c ≠ 'E'

/-- The text is cut into the tokens, whatever follows it. -/
def Lexes (text : List Char) (ts : List Token) : Prop :=
  ∀ rest, Parted rest → tokens? (text ++ rest) = (tokens? rest).map (ts ++ ·)

theorem parted_nil : Parted [] := nofun

theorem Parted.append {a b : List Char} (ha : Parted a) (hb : Parted b) : Parted (a ++ b) := by
  cases a with
  | nil => exact hb
  | cons c a => exact ha

theorem parted_cons {c : Char} {cs : List Char}
    (h : c.isDigit = false ∧ c ≠ '.' ∧ c ≠ 'e' ∧ c ≠ 'E') : Parted (c :: cs) := by
  rintro _ ⟨⟩
  exact h

section

variable {c : Char} {a b cs rest word : List Char} {t : Token} {ts us : List Token}

theorem Lexes.nil : Lexes [] [] := by
  intro rest _
  simp

theorem Lexes.append (ha : Lexes a ts) (hb : Lexes b us) (h : Parted b) : Lexes (a ++ b) (ts ++ us) := by
  intro rest hrest
  rw [List.append_assoc, ha _ (h.append hrest), hb _ hrest, Option.map_map]
  simp only [Function.comp_def, List.append_assoc]

theorem tokens?_cons (hblank : isBlank c = false)
    (h : tokenAt? c (word ++ rest) = some (t, word.length)) :
    tokens? (c :: (word ++ rest)) = (tokens? rest).map (t :: ·) := by
  rw [tokens?, hblank, if_neg Bool.false_ne_true, h]
  show (tokens? ((word ++ rest).drop word.length)).bind _ = _
  rw [List.drop_left, Option.map_eq_bind]
  rfl

theorem Lexes.blank (h : isBlank c = true) (ha : Lexes a ts) : Lexes (c :: a) ts := by
  intro rest hrest
  rw [List.cons_append, tokens?, if_pos h, ha rest hrest]

/-- A bracket or a separator stands for itself, whatever follows. -/
theorem Lexes.symbol (hblank : isBlank c = false) (h : ∀ tail, tokenAt? c tail = some (t, 0))
    (ha : Lexes a ts) : Lexes (c :: a) (t :: ts) := by
  intro rest hrest
  rw [List.cons_append, ← List.nil_append (a ++ rest), tokens?_cons hblank (h _), ha rest hrest,
    Option.map_map]
  rfl

/-- A text that is one token. -/
theorem lexes_token (hblank : isBlank c = false)
    (h : ∀ rest, Parted rest → tokenAt? c (word ++ rest) = some (t, word.length)) :
    Lexes (c :: word) [t] := fun rest hrest => tokens?_cons hblank (h rest hrest)

end

/-! ## Text between quotes -/

theorem charsOf?_unit {n : Nat} (hhigh : isHighUnit n = false) (hlow : isLowUnit n = false)
    (ps : List Piece) : charsOf? (.unit n :: ps) = (charsOf? ps).map (Char.ofNat n :: ·) := by
  cases ps with
  | nil => simp [charsOf?, hhigh, hlow]
  | cons p ps =>
    cases p with
    | char c => simp [charsOf?, hhigh, hlow]
    | unit m => simp [charsOf?, hhigh, hlow]

theorem fourHex?_control : ∀ n < 0x20,
    fourHex? '0' '0' (hexDigit (n / 16)) (hexDigit n) = some n := by decide

/-- Between quotes, the text is one piece, which spells the character. -/
def Quotes (text : List Char) (c : Char) : Prop :=
  ∃ p : Piece,
    (∀ cs, textBody? (text ++ cs) =
      (textBody? cs).map fun (ps, k) => (p :: ps, k + text.length)) ∧
    ∀ ps, charsOf? (p :: ps) = (charsOf? ps).map (c :: ·)

theorem quotes_short {e c : Char} (h : shortEscape? e = some c) : Quotes ['\\', e] c := by
  refine ⟨.char c, fun cs => ?_, fun ps => rfl⟩
  have hu : e ≠ 'u' := by
    rintro rfl
    cases h
  show textBody? ('\\' :: e :: cs) = _
  rw [textBody?.eq_def]
  split
  · next heq => cases heq
  · next heq => exact absurd (List.cons.inj (List.cons.inj heq).2).1 hu
  · next heq =>
    cases heq
    rw [h, Option.map_eq_bind]
    rfl
  · next hno heq =>
    cases heq
    exact absurd rfl (hno _ _ rfl)
  · next heq => cases heq

theorem quotes_control {c : Char} (h : c.toNat < 0x20) :
    Quotes ['\\', 'u', '0', '0', hexDigit (c.toNat / 16), hexDigit c.toNat] c := by
  refine ⟨.unit c.toNat, fun cs => ?_, fun ps => ?_⟩
  · show textBody? ('\\' :: 'u' :: '0' :: '0' :: hexDigit (c.toNat / 16) :: hexDigit c.toNat :: cs) = _
    rw [textBody?, fourHex?_control _ h, Option.map_eq_bind]
    rfl
  · have hhigh : isHighUnit c.toNat = false := by
      simp only [isHighUnit, Bool.and_eq_false_iff, decide_eq_false_iff_not]
      omega
    have hlow : isLowUnit c.toNat = false := by
      simp only [isLowUnit, Bool.and_eq_false_iff, decide_eq_false_iff_not]
      omega
    rw [charsOf?_unit hhigh hlow, Char.ofNat_toNat]

theorem quotes_plain {c : Char} (hquote : c ≠ '\x22') (hslash : c ≠ '\\') (h : ¬ c.toNat < 0x20) :
    Quotes [c] c := by
  refine ⟨.char c, fun cs => ?_, fun ps => rfl⟩
  show textBody? (c :: cs) = _
  rw [textBody?.eq_def]
  split
  · next heq => exact absurd (List.cons.inj heq).1 hquote
  · next heq => exact absurd (List.cons.inj heq).1 hslash
  · next heq => exact absurd (List.cons.inj heq).1 hslash
  · next heq =>
    cases heq
    rw [if_neg (not_or.2 ⟨hslash, h⟩)]
    rfl
  · next heq => cases heq

theorem quotes_escape (c : Char) : Quotes (escape c) c := by
  unfold escape
  split_ifs with h1 h2 h3 h4 h5 h6 h7 h8
  · subst h1
    exact quotes_short rfl
  · subst h2
    exact quotes_short rfl
  · subst h3
    exact quotes_short rfl
  · subst h4
    exact quotes_short rfl
  · subst h5
    exact quotes_short rfl
  · subst h6
    exact quotes_short rfl
  · subst h7
    exact quotes_short rfl
  · exact quotes_control h8
  · exact quotes_plain h1 h2 h8

theorem textBody?_flatMap_escape (cs rest : List Char) :
    ∃ ps, textBody? (cs.flatMap escape ++ '\x22' :: rest) =
        some (ps, (cs.flatMap escape ++ ['\x22']).length) ∧
      charsOf? ps = some cs := by
  induction cs with
  | nil => exact ⟨[], by rw [List.flatMap_nil, List.nil_append, textBody?]; rfl, rfl⟩
  | cons c cs ih =>
    obtain ⟨ps, hps, hchars⟩ := ih
    obtain ⟨p, hp, hc⟩ := quotes_escape c
    refine ⟨p :: ps, ?_, ?_⟩
    · have hlength : ∀ word : List Char, (escape c ++ word).length = word.length + (escape c).length :=
        fun word => by rw [List.length_append, Nat.add_comm]
      rw [List.flatMap_cons, List.append_assoc, hp, hps, List.append_assoc, hlength]
      rfl
    · rw [hc, hchars, Option.map_some]

theorem lexes_quoted (s : String) : Lexes (quoted s).toList [.scalar (.string s)] := by
  rw [quoted, String.toList_ofList, List.cons_append]
  refine lexes_token rfl fun rest _ => ?_
  obtain ⟨ps, hps, hchars⟩ := textBody?_flatMap_escape s.toList rest
  rw [List.append_assoc, List.singleton_append]
  have htext : textOf ps = .string s := by
    unfold textOf
    rw [hchars]
    exact congrArg Json.string String.ofList_toList
  show (textBody? _).map _ = _
  rw [hps, ← htext]
  rfl

/-! ## Numbers -/

theorem digitCount_append {ds rest : List Char} (hds : ∀ c ∈ ds, c.isDigit = true) (h : Parted rest) :
    digitCount (ds ++ rest) = ds.length := by
  have hrest : rest.takeWhile Char.isDigit = [] := by
    cases rest with
    | nil => rfl
    | cons c rest => rw [List.takeWhile_cons, (h c rfl).1, if_neg Bool.false_ne_true]
  rw [digitCount, List.takeWhile_append_of_pos hds, hrest, List.append_nil]

theorem wholeLength_toDigits (n : Nat) {rest : List Char} (h : Parted rest) :
    wholeLength (Nat.toDigits 10 n ++ rest) = (Nat.toDigits 10 n).length := by
  rcases Nat.eq_zero_or_pos n with rfl | hn
  · rfl
  · have hcount : digitCount (Nat.toDigits 10 n ++ rest) = (Nat.toDigits 10 n).length :=
      digitCount_append (fun _ => isDigit_of_mem_toDigits) h
    obtain ⟨d, ds, hds, hd⟩ := toDigits_head hn
    rw [hds] at hcount ⊢
    unfold wholeLength
    split
    · next heq => exact absurd (List.cons.inj heq).1 hd
    · exact hcount

theorem Parted.point {rest : List Char} (h : Parted rest) : markedLength? pointLength rest = some 0 := by
  have hpoint : pointLength rest = 0 := by
    unfold pointLength
    split
    · exact absurd rfl (h '.' rfl).2.1
    · rfl
  rw [markedLength?, hpoint]
  rfl

theorem Parted.exponent {rest : List Char} (h : Parted rest) :
    markedLength? exponentMarkLength rest = some 0 := by
  have hmark : exponentMarkLength rest = 0 := by
    unfold exponentMarkLength
    split
    · next e _ _ =>
      obtain ⟨-, -, he, hE⟩ := h e rfl
      exact if_neg (not_or.2 ⟨he, hE⟩)
    · next e =>
      obtain ⟨-, -, he, hE⟩ := h e rfl
      exact if_neg (not_or.2 ⟨he, hE⟩)
    · rfl
  rw [markedLength?, hmark]
  rfl

/-- A minus sign or none, digits, and nothing that goes on from them. -/
theorem numeral?_digits (front : List Char) (n : Nat) {rest : List Char} (h : Parted rest)
    (hsign : signLength (front ++ (Nat.toDigits 10 n ++ rest)) = front.length)
    (hzero : ¬ (front.length = 1 ∧ n = 0)) :
    numeral? (front ++ (Nat.toDigits 10 n ++ rest)) =
      some (.integer (if front.length = 1 then -(n : Int) else n),
        front.length + (Nat.toDigits 10 n).length) := by
  have hrest : (front ++ (Nat.toDigits 10 n ++ rest)).drop (front.length + (Nat.toDigits 10 n).length) =
      rest := by
    rw [← List.drop_drop, List.drop_left, List.drop_left]
  rw [numeral?]
  simp only [hsign, List.drop_left, wholeLength_toDigits n h, hrest, h.point, List.take_left,
    Nat.ofDigitChars_ten_toDigits]
  simp [hzero, h.exponent]

theorem numeral?_toString (n : Int) {rest : List Char} (h : Parted rest) :
    numeral? ((toString n).toList ++ rest) = some (.integer n, (toString n).toList.length) := by
  rw [Numeral.toList_toString, List.append_assoc]
  split
  · next hn =>
    rw [numeral?_digits ['-'] n.natAbs h rfl fun hzero => by omega]
    have hvalue : -(n.natAbs : Int) = n := by omega
    rw [List.length_singleton, if_pos rfl, hvalue, List.length_append, List.length_singleton]
  · next hn =>
    have hsign : signLength ([] ++ (Nat.toDigits 10 n.natAbs ++ rest)) = 0 := by
      unfold signLength
      split
      · next heq =>
        obtain ⟨d, ds, hds⟩ := List.exists_cons_of_ne_nil (Nat.toDigits_ne_nil (b := 10) (n := n.natAbs))
        rw [hds] at heq
        have hd : d.isDigit = true := isDigit_of_mem_toDigits (hds ▸ List.mem_cons_self)
        exact absurd (List.cons.inj heq).1 (ne_of_isDigit hd rfl)
      · rfl
    rw [numeral?_digits [] n.natAbs h hsign nofun]
    have hvalue : (n.natAbs : Int) = n := by omega
    rw [List.length_nil, if_neg (by decide), hvalue, Nat.zero_add, List.nil_append]

/-- Only a number begins with a minus sign or a digit. -/
theorem tokenAt?_numeral {c : Char} (h : c = '-' ∨ c.isDigit = true) (tail : List Char) :
    tokenAt? c tail = (numeral? (c :: tail)).map fun (v, k) => (.scalar v, k - 1) := by
  unfold tokenAt?
  split
  case h_8 => rw [if_pos h]
  all_goals exact absurd h (by decide)

theorem lexes_integer (n : Int) : Lexes (toString n).toList [.scalar (.integer n)] := by
  have hnumeral := isNumeral_toString n
  obtain ⟨c, word, hword⟩ := List.exists_cons_of_ne_nil hnumeral.ne_nil
  have hc := (hword ▸ hnumeral).first
  have hblank : isBlank c = false := by
    rcases hc with rfl | hc
    · rfl
    · simp [isBlank, ne_of_isDigit hc]
  rw [hword]
  refine lexes_token hblank fun rest hrest => ?_
  have hread := numeral?_toString n hrest
  rw [hword, List.cons_append] at hread
  rw [tokenAt?_numeral hc, hread]
  rfl

/-! ## Constants -/

theorem lexes_null : Lexes "null".toList [.scalar .null] := lexes_token rfl fun _ _ => rfl

theorem lexes_true : Lexes "true".toList [.scalar (.bool true)] := lexes_token rfl fun _ _ => rfl

theorem lexes_false : Lexes "false".toList [.scalar (.bool false)] := lexes_token rfl fun _ _ => rfl

end Stave.Json
