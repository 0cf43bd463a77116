import Mathlib.Computability.Language
import Mathlib.Tactic.IntervalCases
import Stave.Proofs.Score.Place

/-!
# Longest match

Each kind of segment has its pattern, a language of texts; no pattern has the empty text.

    number     -?[0-9]+(\.[0-9]+)?
    note name  [A-G][#b]*(-?[0-9]+)?
    comment    //[^\n]*
    blank      [ \t\r\n]+
    any other  its own character

What stands at a place is the longest text there that any pattern has, and it has the kind of the
pattern.  The patterns meet: a minus sign belongs to a number, to an octave or to nothing, a point
to a number if digits follow, `b` to a name but not by itself.  `Scanned` says what it is to cut a
text this way, without a word about how; the lexer cuts every source so, or stops at the first
character where no pattern has anything.

    the word that segmentAt finds is in the pattern of its kind                (segmentAt_mem)
    a word of any pattern is no longer than what segmentAt finds there         (segmentAt_of_mem)
    Longest k (c :: tail) after ↔ segmentAt finds c :: tail, of kind k         (longest_iff)
    Scanned o cs ls ↔ itemsFrom o cs = ls.map .ok                              (scanned_iff)
    tokenize source = .ok ls ↔ Scanned 0 source ls; what this says of ls,
      and where it stops otherwise                                             (longest_match)
-/

namespace Stave.Score

open Stave.Text Computability

/-! ## Patterns -/

/-- The texts of one character that passes a test. -/
def one (test : Char → Bool) : Language Char := {cs | ∃ c, test c = true ∧ cs = [c]}

def digits : Language Char := one Char.isDigit * (one Char.isDigit)∗

def signed : Language Char := (1 + one (· = '-')) * digits

def places : Language Char := 1 + one (· = '.') * digits

def Token.language : Token → Language Char
  | .number => signed * places
  | .noteName => one (fun c => 'A' ≤ c ∧ c ≤ 'G') * ((one NoteName.isAccidental)∗ * (1 + signed))
  | .comment => one (· = '/') * (one (· = '/') * (one (· ≠ '\n'))∗)
  | t => one fun c => t.symbol? = some c

def SegmentKind.language : SegmentKind → Language Char
  | .token t => t.language
  | .blank => one isBlank * (one isBlank)∗
  | .stray => 0

section

variable {test : Char → Bool} {cs : List Char}

theorem mem_one : cs ∈ one test ↔ ∃ c, test c = true ∧ cs = [c] := Iff.rfl

theorem mem_run : cs ∈ (one test)∗ ↔ ∀ c ∈ cs, test c = true := by
  constructor
  · intro h c hc
    obtain ⟨L, rfl, hL⟩ := Language.mem_kstar.1 h
    obtain ⟨y, hy, hc⟩ := List.mem_flatten.1 hc
    obtain ⟨d, hd, rfl⟩ := hL y hy
    rwa [List.mem_singleton.1 hc]
  · intro h
    have hflat : (cs.map fun c => [c]).flatten ∈ (one test)∗ := by
      refine Language.join_mem_kstar fun y hy => ?_
      obtain ⟨c, hc, rfl⟩ := List.mem_map.1 hy
      exact ⟨c, h c hc, rfl⟩
    rwa [← List.flatMap_def, List.flatMap_singleton'] at hflat

theorem mem_one_mul {L : Language Char} :
    cs ∈ one test * L ↔ ∃ c tail, test c = true ∧ tail ∈ L ∧ cs = c :: tail := by
  rw [Language.mem_mul]
  constructor
  · rintro ⟨_, ⟨c, hc, rfl⟩, tail, htail, rfl⟩
    exact ⟨c, tail, hc, htail, rfl⟩
  · rintro ⟨c, tail, hc, htail, rfl⟩
    exact ⟨[c], ⟨c, hc, rfl⟩, tail, htail, rfl⟩

theorem mem_digits : cs ∈ digits ↔ cs ≠ [] ∧ ∀ c ∈ cs, c.isDigit = true := by
  rw [digits, mem_one_mul]
  constructor
  · rintro ⟨c, tail, hc, htail, rfl⟩
    exact ⟨List.cons_ne_nil c tail, List.forall_mem_cons.2 ⟨hc, mem_run.1 htail⟩⟩
  · rintro ⟨hne, h⟩
    obtain ⟨c, tail, rfl⟩ := List.exists_cons_of_ne_nil hne
    obtain ⟨hc, htail⟩ := List.forall_mem_cons.1 h
    exact ⟨c, tail, hc, mem_run.2 htail, rfl⟩

theorem mem_signed : cs ∈ signed ↔ IsNumeral cs := by
  rw [signed, add_mul, one_mul, Language.mem_add, mem_one_mul, mem_digits]
  constructor
  · rintro (⟨hne, h⟩ | ⟨c, ds, hc, hds, rfl⟩)
    · exact ⟨cs, hne, h, .inl rfl⟩
    · obtain ⟨hne, h⟩ := mem_digits.1 hds
      rw [of_decide_eq_true hc]
      exact ⟨ds, hne, h, .inr rfl⟩
  · rintro ⟨ds, hne, h, rfl | rfl⟩
    · exact .inl ⟨hne, h⟩
    · exact .inr ⟨'-', ds, rfl, mem_digits.2 ⟨hne, h⟩, rfl⟩

theorem mem_places : cs ∈ places ↔ cs = [] ∨ ∃ ds ∈ digits, cs = '.' :: ds := by
  rw [places, Language.mem_add, Language.mem_one, mem_one_mul]
  refine or_congr_right ⟨?_, ?_⟩
  · rintro ⟨c, ds, hc, hds, rfl⟩
    rw [of_decide_eq_true hc]
    exact ⟨ds, hds, rfl⟩
  · rintro ⟨ds, hds, rfl⟩
    exact ⟨'.', ds, rfl, hds, rfl⟩

theorem letterClass?_isSome {c : Char} : (letterClass? c).isSome ↔ 'A' ≤ c ∧ c ≤ 'G' := by
  constructor
  · intro h
    unfold letterClass? at h
    split at h <;> first | decide | cases h
  · rintro ⟨hle, hge⟩
    have hle' : 65 ≤ c.toNat := hle
    have hge' : c.toNat ≤ 71 := hge
    rw [← Char.ofNat_toNat c]
    generalize c.toNat = n at hle' hge'
    interval_cases n <;> rfl

end

/-! ## Lengths -/

/-- A length that is that of the longest text of a language at the start of any text. -/
structure Finds (L : Language Char) (f : List Char → Nat) : Prop where
  mem : ∀ cs : List Char, cs.take (f cs) ∈ L
  longest : ∀ {w : List Char}, w ∈ L → ∀ rest, w.length ≤ f (w ++ rest)

theorem runLength_of_all {test : Char → Bool} {w : List Char} (h : ∀ c ∈ w, test c = true)
    (rest : List Char) : runLength test (w ++ rest) = w.length + runLength test rest := by
  rw [runLength, List.takeWhile_append_of_pos h, List.length_append, runLength]

theorem take_runLength (test : Char → Bool) (cs : List Char) :
    cs.take (runLength test cs) = cs.takeWhile test :=
  (List.prefix_iff_eq_take.1 (List.takeWhile_prefix test)).symm

theorem finds_run (test : Char → Bool) : Finds (one test)∗ (runLength test) where
  mem cs := by
    rw [take_runLength, mem_run]
    exact fun c hc => List.mem_takeWhile_imp hc
  longest hw rest := by
    rw [runLength_of_all (mem_run.1 hw)]
    exact Nat.le_add_right _ _

/-- One text after another, if the second begins where the first has to end. -/
theorem Finds.append {L M : Language Char} {f g : List Char → Nat} (hL : Finds L f) (hM : Finds M g)
    (h : ∀ v ∈ L, ∀ w ∈ M, w ≠ [] → ∀ rest, f (v ++ (w ++ rest)) = v.length) :
    Finds (L * M) fun cs => f cs + g (cs.drop (f cs)) where
  mem cs := by
    rw [List.take_add]
    exact Language.append_mem_mul (hL.mem cs) (hM.mem _)
  longest := by
    intro u hu rest
    obtain ⟨v, hv, w, hw, rfl⟩ := Language.mem_mul.1 hu
    rw [List.append_assoc, List.length_append]
    rcases eq_or_ne w [] with rfl | hne
    · exact Nat.le_add_right_of_le (hL.longest hv _)
    · rw [h v hv w hw hne, List.drop_left]
      exact Nat.add_le_add_left (hM.longest hw rest) _

theorem runLength_pos {test : Char → Bool} {cs : List Char} {n : Nat} (h : runLength test cs = n + 1) :
    cs.take (n + 1) ≠ [] := by
  cases cs with
  | nil => cases h
  | cons c cs => exact List.cons_ne_nil _ _

theorem take_digits {cs : List Char} {n : Nat} (h : runLength Char.isDigit cs = n + 1) :
    cs.take (n + 1) ∈ digits := by
  refine mem_digits.2 ⟨runLength_pos h, ?_⟩
  have hrun := (finds_run Char.isDigit).mem cs
  rw [h] at hrun
  exact mem_run.1 hrun

theorem length_digits {ds : List Char} (h : ds ∈ digits) (rest : List Char) :
    ∃ n, runLength Char.isDigit (ds ++ rest) = n + 1 ∧ ds.length ≤ n + 1 := by
  obtain ⟨hne, hall⟩ := mem_digits.1 h
  have hrun := runLength_of_all hall rest
  have hpos := List.length_pos_of_ne_nil hne
  exact ⟨ds.length + runLength Char.isDigit rest - 1, by omega, by omega⟩

theorem finds_places : Finds places placesLength where
  mem cs := by
    unfold placesLength
    split
    · next cs =>
      split
      · exact mem_places.2 (.inl rfl)
      · next hn =>
        obtain ⟨n, hn⟩ := Nat.exists_eq_succ_of_ne_zero hn
        rw [hn]
        exact mem_places.2 (.inr ⟨_, take_digits hn, rfl⟩)
    · exact mem_places.2 (.inl rfl)
  longest hw rest := by
    rcases mem_places.1 hw with rfl | ⟨ds, hds, rfl⟩
    · exact Nat.zero_le _
    · obtain ⟨n, hrun, hle⟩ := length_digits hds rest
      rw [List.cons_append, placesLength, hrun, List.length_cons]
      exact Nat.succ_le_succ hle

theorem signedLength_of_ne {c : Char} (hc : c ≠ '-') (cs : List Char) :
    signedLength (c :: cs) = runLength Char.isDigit (c :: cs) := by
  unfold signedLength
  split
  · next heq => exact absurd (List.cons.inj heq).1 hc
  · rfl

theorem take_signed {cs : List Char} (h : signedLength cs ≠ 0) :
    cs.take (signedLength cs) ∈ signed := by
  obtain ⟨n, hn⟩ := Nat.exists_eq_succ_of_ne_zero h
  rw [hn]
  unfold signedLength at hn
  split at hn
  · next cs =>
    split at hn
    · cases hn
    · next hne =>
      obtain rfl := Nat.succ.inj hn
      obtain ⟨m, hm⟩ := Nat.exists_eq_succ_of_ne_zero hne
      obtain ⟨hds, hall⟩ := mem_digits.1 (take_digits hm)
      rw [hm]
      exact mem_signed.2 ⟨_, hds, hall, .inr rfl⟩
  · obtain ⟨hds, hall⟩ := mem_digits.1 (take_digits hn)
    exact mem_signed.2 ⟨_, hds, hall, .inl rfl⟩

/-- A numeral is found as far as it goes, or with the digits that follow it. -/
theorem signedLength_numeral {w : List Char} (h : IsNumeral w) (rest : List Char) :
    signedLength (w ++ rest) = w.length + runLength Char.isDigit rest := by
  obtain ⟨ds, hne, hall, rfl | rfl⟩ := h
  · obtain ⟨d, ds, rfl⟩ := List.exists_cons_of_ne_nil hne
    have hd : d ≠ '-' := ne_of_isDigit (hall d List.mem_cons_self) rfl
    rw [← runLength_of_all hall]
    exact signedLength_of_ne hd (ds ++ rest)
  · have hrun := runLength_of_all hall rest
    have hpos := List.length_pos_of_ne_nil hne
    rw [List.cons_append, signedLength, List.length_cons]
    split <;> omega

theorem finds_signed : Finds (1 + signed) signedLength where
  mem cs := by
    by_cases h : signedLength cs = 0
    · rw [h]
      exact .inl rfl
    · exact .inr (take_signed h)
  longest hw rest := by
    rcases hw with hw | hw
    · rw [(Language.mem_one _).1 hw]
      exact Nat.zero_le _
    · rw [signedLength_numeral (mem_signed.1 hw)]
      exact Nat.le_add_right _ _

theorem finds_nameTail :
    Finds ((one NoteName.isAccidental)∗ * (1 + signed)) nameTailLength := by
  refine (finds_run _).append finds_signed fun marks hmarks octave hoctave hne rest => ?_
  rcases hoctave with hoctave | hoctave
  · exact absurd hoctave hne
  · exact runLength_append (mem_run.1 hmarks) (markless_numeral (mem_signed.1 hoctave) rest)

theorem finds_number : Finds (1 + signed * places) numberLength where
  mem cs := by
    unfold numberLength
    split
    · exact .inl rfl
    · next h =>
      rw [List.take_add]
      exact .inr (Language.append_mem_mul (take_signed h) (finds_places.mem _))
  longest hw rest := by
    rcases hw with hw | hw
    · rw [(Language.mem_one _).1 hw]
      exact Nat.zero_le _
    · obtain ⟨v, hv, w, hplaces, rfl⟩ := Language.mem_mul.1 hw
      have hnumeral := mem_signed.1 hv
      have hlength := signedLength_numeral hnumeral (w ++ rest)
      have hpos := List.length_pos_of_ne_nil hnumeral.ne_nil
      unfold numberLength
      rw [List.append_assoc, List.length_append]
      split
      · omega
      · rcases mem_places.1 hplaces with rfl | ⟨ds, hds, rfl⟩
        · rw [List.length_nil]
          omega
        · -- the digits end where the point is
          have hrun : runLength Char.isDigit ('.' :: ds ++ rest) = 0 := rfl
          rw [hrun, Nat.add_zero] at hlength
          rw [hlength, List.drop_left]
          exact Nat.add_le_add_left (finds_places.longest hplaces rest) _

/-! ## One segment -/

section

variable {c : Char} {k kind : SegmentKind} {tail text after cs : List Char}

theorem Token.language_of_symbol {t : Token} (h : t.symbol? = some c) : t.language = one fun d =>
    t.symbol? = some d := by
  cases t <;> first | rfl | cases h

theorem Token.symbol?_of_ofSymbol? {t : Token} (h : Token.ofSymbol? c = some t) :
    t.symbol? = some c := by
  unfold Token.ofSymbol? at h
  have hfound := List.find?_some h
  exact eq_of_beq hfound

theorem mem_comment : cs ∈ Token.comment.language ↔
    ∃ body, (∀ c ∈ body, (!Span.isLineBreak c) = true) ∧ cs = '/' :: '/' :: body := by
  have hbreak : ∀ c, decide (c ≠ '\n') = !Span.isLineBreak c := fun c => decide_not
  simp only [Token.language, hbreak, mem_one_mul]
  constructor
  · rintro ⟨c, _, hc, ⟨d, body, hd, hbody, rfl⟩, rfl⟩
    rw [of_decide_eq_true hc, of_decide_eq_true hd]
    exact ⟨body, mem_run.1 hbody, rfl⟩
  · rintro ⟨body, hbody, rfl⟩
    exact ⟨'/', _, rfl, ⟨'/', body, rfl, mem_run.2 hbody, rfl⟩, rfl⟩

theorem ne_nil_of_mem (h : cs ∈ k.language) : cs ≠ [] := by
  rintro rfl
  cases k with
  | stray => exact h
  | blank => obtain ⟨_, _, _, _, h⟩ := mem_one_mul.1 h; cases h
  | token t =>
    cases t
    case number =>
      obtain ⟨v, hv, w, -, hvw⟩ := Language.mem_mul.1 h
      exact (mem_signed.1 hv).ne_nil (List.append_eq_nil_iff.1 hvw).1
    case noteName => obtain ⟨_, _, _, _, h⟩ := mem_one_mul.1 h; cases h
    case comment => obtain ⟨_, _, h⟩ := mem_comment.1 h; cases h
    all_goals
      obtain ⟨_, _, h⟩ := mem_one.1 h
      cases h

/-- The word that is found is in the pattern of its kind. -/
theorem segmentAt_mem (hk : (segmentAt c tail).1 ≠ .stray) :
    c :: tail.take (segmentAt c tail).2 ∈ (segmentAt c tail).1.language := by
  by_cases hblank : isBlank c
  · rw [segmentAt_blank hblank]
    exact mem_one_mul.2 ⟨c, _, hblank, (finds_run isBlank).mem tail, rfl⟩
  by_cases hslash : c = '/' ∧ tail.head? = some '/'
  · obtain ⟨rfl, hhead⟩ := hslash
    obtain ⟨body, rfl⟩ := List.head?_eq_some_iff.1 hhead
    rw [segmentAt_comment]
    refine mem_comment.2 ⟨body.takeWhile (!Span.isLineBreak ·), fun d hd => ?_, ?_⟩
    · exact List.mem_takeWhile_imp (p := (!Span.isLineBreak ·)) hd
    · rw [take_runLength, List.takeWhile_cons_of_pos (by rfl)]
  rw [segmentAt_other (eq_false_of_ne_true hblank) hslash] at hk ⊢
  by_cases hletter : (letterClass? c).isSome
  · rw [if_pos hletter]
    exact mem_one_mul.2 ⟨c, _, decide_eq_true (letterClass?_isSome.1 hletter),
      finds_nameTail.mem tail, rfl⟩
  rw [if_neg hletter] at hk ⊢
  split
  · next n hn =>
    have hmem := finds_number.mem (c :: tail)
    rw [hn, List.take_succ_cons] at hmem
    rcases hmem with hmem | hmem
    · cases hmem
    · exact hmem
  · split
    · next t ht =>
      have hsymbol := Token.symbol?_of_ofSymbol? ht
      rw [SegmentKind.language, Token.language_of_symbol hsymbol]
      exact mem_one.2 ⟨c, decide_eq_true hsymbol, rfl⟩
    · next hn _ ht =>
      rw [hn, ht] at hk
      exact absurd rfl hk

/-- Where a pattern has a word something is found, no shorter, and of the kind of the pattern; only
a slash may turn out to be the first of a comment. -/
theorem segmentAt_of_mem (h : c :: text ∈ k.language) (after : List Char) :
    text.length ≤ (segmentAt c (text ++ after)).2 ∧
      ((segmentAt c (text ++ after)).1 = k ∨
        text = [] ∧ (segmentAt c (text ++ after)).1 = .token .comment) := by
  cases k with
  | stray => exact h.elim
  | blank =>
    obtain ⟨_, _, hc, htext, heq⟩ := mem_one_mul.1 h
    cases heq
    rw [segmentAt_blank hc]
    exact ⟨(finds_run isBlank).longest htext after, .inl rfl⟩
  | token t =>
    cases t
    case comment =>
      obtain ⟨body, hbody, heq⟩ := mem_comment.1 h
      cases heq
      have hall : ∀ c ∈ '/' :: body, (!Span.isLineBreak c) = true := List.forall_mem_cons.2 ⟨rfl, hbody⟩
      rw [List.cons_append, segmentAt_comment, ← List.cons_append]
      exact ⟨(finds_run (!Span.isLineBreak ·)).longest (mem_run.2 hall) after, .inl rfl⟩
    case noteName =>
      obtain ⟨_, _, hc, htext, heq⟩ := mem_one_mul.1 h
      cases heq
      rw [segmentAt_letter (letterClass?_isSome.2 (of_decide_eq_true hc))]
      exact ⟨finds_nameTail.longest htext after, .inl rfl⟩
    case number =>
      have hlength := finds_number.longest (.inr h) after
      obtain ⟨n, hn⟩ : ∃ n, numberLength (c :: (text ++ after)) = n + 1 :=
        Nat.exists_eq_succ_of_ne_zero fun h0 => by
          rw [List.cons_append, h0] at hlength
          cases hlength
      rw [List.cons_append, hn] at hlength
      have hfirst : c = '-' ∨ c.isDigit = true := by
        obtain ⟨v, hv, w, -, hvw⟩ := Language.mem_mul.1 h
        obtain ⟨d, v, rfl⟩ := List.exists_cons_of_ne_nil (mem_signed.1 hv).ne_nil
        cases hvw
        exact (mem_signed.1 hv).first
      rw [segmentAt_digit hfirst hn]
      exact ⟨Nat.le_of_succ_le_succ hlength, .inl rfl⟩
    all_goals
      obtain ⟨d, hd, heq⟩ := mem_one.1 h
      cases heq
      refine ⟨Nat.zero_le _, ?_⟩
      by_cases hslash : c = '/' ∧ after.head? = some '/'
      · obtain ⟨rfl, hhead⟩ := hslash
        obtain ⟨body, rfl⟩ := List.head?_eq_some_iff.1 hhead
        exact .inr ⟨rfl, rfl⟩
      · refine .inl ?_
        rw [List.nil_append, segmentAt_symbol (of_decide_eq_true hd) fun hc hhead => hslash ⟨hc, hhead⟩]

/-- A text of a kind that is the longest which any pattern has at the start of what follows. -/
structure Longest (k : SegmentKind) (text after : List Char) : Prop where
  mem : text ∈ k.language
  longest : ∀ kind word, word ∈ SegmentKind.language kind → word <+: text ++ after →
    word.length ≤ text.length

theorem longest_iff : Longest k (c :: text) after ↔
    k ≠ .stray ∧ segmentAt c (text ++ after) = (k, text.length) := by
  constructor
  · intro h
    obtain ⟨hle, hkind⟩ := segmentAt_of_mem h.mem after
    have hstray : k ≠ .stray := fun hk => by
      have hmem := h.mem
      rw [hk] at hmem
      exact hmem
    have hfound : (segmentAt c (text ++ after)).1 ≠ .stray := by
      rcases hkind with hkind | ⟨-, hkind⟩
      · rwa [hkind]
      · rw [hkind]
        nofun
    have hmem := segmentAt_mem hfound
    have hge := h.longest _ _ hmem ⟨(text ++ after).drop (segmentAt c (text ++ after)).2, by
      rw [List.cons_append, List.take_append_drop, List.cons_append]⟩
    rw [List.length_cons, List.length_take_of_le (segmentAt_fits c _), List.length_cons] at hge
    refine ⟨hstray, Prod.ext ?_ (Nat.le_antisymm (Nat.le_of_succ_le_succ hge) hle)⟩
    rcases hkind with hkind | ⟨rfl, hkind⟩
    · exact hkind
    · -- a comment has two slashes at least
      rw [hkind] at hmem
      obtain ⟨body, -, hbody⟩ := mem_comment.1 hmem
      rw [Nat.le_zero.1 (Nat.le_of_succ_le_succ hge)] at hbody
      cases hbody
  · rintro ⟨hstray, hfound⟩
    constructor
    · have hsegment : (segmentAt c (text ++ after)).1 ≠ .stray := by rwa [hfound]
      have hmem := segmentAt_mem hsegment
      rwa [hfound, List.take_left] at hmem
    · rintro kind word hword ⟨rest, hrest⟩
      obtain ⟨d, word, rfl⟩ := List.exists_cons_of_ne_nil (ne_nil_of_mem hword)
      rw [List.cons_append, List.cons_append, List.cons.injEq] at hrest
      obtain ⟨rfl, hrest⟩ := hrest
      obtain ⟨hle, -⟩ := segmentAt_of_mem hword rest
      rw [hrest, hfound] at hle
      exact Nat.succ_le_succ hle

/-- A character is stray where no pattern has a word. -/
theorem segmentAt_stray (h : (segmentAt c tail).1 = .stray) {word : List Char}
    (hword : word ∈ k.language) : ¬ word <+: c :: tail := by
  rintro ⟨rest, hrest⟩
  obtain ⟨d, word, rfl⟩ := List.exists_cons_of_ne_nil (ne_nil_of_mem hword)
  rw [List.cons_append, List.cons.injEq] at hrest
  obtain ⟨rfl, rfl⟩ := hrest
  obtain ⟨-, hkind | ⟨-, hkind⟩⟩ := segmentAt_of_mem hword rest
  · rw [← hkind, h] at hword
    exact hword
  · rw [h] at hkind
    cases hkind

end

/-! ## A whole source -/

/-- The lexemes of a text that begins at an offset.  Each stretch of the text is the longest that
could begin there; blanks and comments are passed over. -/
inductive Scanned : Nat → List Char → List Lexeme → Prop
  | nil (o : Nat) : Scanned o [] []
  | skip {o : Nat} {k : SegmentKind} {text after : List Char} {ls : List Lexeme}
      (hk : k = .blank ∨ k = .token .comment) (h : Longest k text after)
      (rest : Scanned (o + byteLength text) after ls) : Scanned o (text ++ after) ls
  | lexeme {o : Nat} {t : Token} {text after : List Char} {ls : List Lexeme} (ht : t ≠ .comment)
      (h : Longest (.token t) text after) (rest : Scanned (o + byteLength text) after ls) :
      Scanned o (text ++ after) (⟨t, ⟨o, o + byteLength text⟩, text⟩ :: ls)

/-- What may stand between lexemes: blanks and comments. -/
def gap : Language Char := (SegmentKind.blank.language + Token.comment.language)∗

section

variable {o : Nat} {cs source : List Char} {ls : List Lexeme}

theorem itemsFrom_longest {k : SegmentKind} {text after : List Char} (h : Longest k text after)
    (o : Nat) : itemsFrom o (text ++ after) =
      (Segment.mk k o text).item?.toList ++ itemsFrom (o + byteLength text) after := by
  obtain ⟨c, tail, rfl⟩ := List.exists_cons_of_ne_nil (ne_nil_of_mem h.mem)
  rw [itemsFrom, segments_cons o c tail after (longest_iff.1 h).2, List.filterMap_cons]
  cases (Segment.mk k o (c :: tail)).item? <;> rfl

theorem longest_segmentAt {c : Char} {tail : List Char} {k : SegmentKind} {n : Nat}
    (h : segmentAt c tail = (k, n)) (hk : k ≠ .stray) :
    Longest k (c :: tail.take n) (tail.drop n) := by
  have hfits := segmentAt_fits c tail
  rw [h] at hfits
  rw [longest_iff, List.take_append_drop, List.length_take_of_le hfits]
  exact ⟨hk, h⟩

theorem Scanned.items (h : Scanned o cs ls) : itemsFrom o cs = ls.map .ok := by
  induction h with
  | nil o => exact itemsFrom_nil o
  | skip hk h _ ih =>
    rw [itemsFrom_longest h, ih]
    rcases hk with rfl | rfl <;> rfl
  | lexeme ht h _ ih =>
    rw [itemsFrom_longest h, ih, Segment.item?_token ht]
    rfl

theorem scanned_of_items : ∀ ls, itemsFrom o cs = ls.map .ok → Scanned o cs ls := by
  induction o, cs using segments.induct with
  | case1 o =>
    intro ls h
    rw [itemsFrom_nil] at h
    rw [List.map_eq_nil_iff.1 h.symm]
    exact .nil o
  | case2 o c tail k n hfound text ih =>
    intro ls h
    have hcut : text ++ tail.drop n = c :: tail := by
      rw [List.cons_append, List.take_append_drop]
    have hitems : itemsFrom o (c :: tail) = (Segment.mk k o text).item?.toList ++
        itemsFrom (o + byteLength text) (tail.drop n) := by
      rw [itemsFrom, segments, hfound, List.filterMap_cons]
      cases (Segment.mk k o text).item? <;> rfl
    rw [hitems] at h
    rw [← hcut]
    cases k with
    | stray => cases ls <;> cases h
    | blank => exact .skip (.inl rfl) (longest_segmentAt hfound (by rintro ⟨⟩)) (ih ls h)
    | token t =>
      by_cases ht : t = .comment
      · subst ht
        exact .skip (.inr rfl) (longest_segmentAt hfound (by rintro ⟨⟩)) (ih ls h)
      · rw [Segment.item?_token ht] at h
        cases ls with
        | nil => cases h
        | cons l ls =>
          obtain ⟨hl, hls⟩ := List.cons.inj h
          cases hl
          exact .lexeme ht (longest_segmentAt hfound (by rintro ⟨⟩)) (ih ls hls)

theorem scanned_iff : Scanned o cs ls ↔ itemsFrom o cs = ls.map .ok :=
  ⟨Scanned.items, scanned_of_items ls⟩

theorem scanned_of_tokenize : tokenize source = .ok ls ↔ Scanned 0 source ls := by
  rw [scanned_iff]
  refine ⟨mapM_id_eq_ok, fun h => ?_⟩
  rw [tokenize, items, ← itemsFrom, h, mapM_id_map_ok]

/-- A lexeme stands where its span says, and is the longest that could. -/
theorem Scanned.longest (h : Scanned o cs ls) {l : Lexeme} (hl : l ∈ ls) : ∃ before after,
    cs = before ++ l.text ++ after ∧
    l.span = ⟨o + byteLength before, o + byteLength before + byteLength l.text⟩ ∧
    l.token ≠ .comment ∧ Longest (.token l.token) l.text after := by
  induction h with
  | nil o => cases hl
  | @skip o k text _ _ _ _ _ ih =>
    obtain ⟨before, after, rfl, hspan, hlongest⟩ := ih hl
    refine ⟨text ++ before, after, by simp only [List.append_assoc], ?_, hlongest⟩
    rw [hspan, byteLength_append, Nat.add_assoc]
  | @lexeme o t text _ _ ht hlongest _ ih =>
    rcases List.mem_cons.1 hl with rfl | hl
    · exact ⟨[], _, rfl, rfl, ht, hlongest⟩
    · obtain ⟨before, after, rfl, hspan, hlongest⟩ := ih hl
      refine ⟨text ++ before, after, by simp only [List.append_assoc], ?_, hlongest⟩
      rw [hspan, byteLength_append, Nat.add_assoc]

/-- Before the first lexeme and behind each of them there is a gap. -/
theorem Scanned.gaps (h : Scanned o cs ls) : ∃ first ∈ gap, ∃ gapped : List (Lexeme × List Char),
    gapped.map Prod.fst = ls ∧ (∀ x ∈ gapped, x.2 ∈ gap) ∧
    cs = first ++ gapped.flatMap fun x => x.1.text ++ x.2 := by
  induction h with
  | nil o => exact ⟨[], Language.nil_mem_kstar _, [], rfl, nofun, rfl⟩
  | @skip o k text _ _ hk hlongest _ ih =>
    obtain ⟨first, hfirst, gapped, hls, hgaps, rfl⟩ := ih
    have htext : text ∈ SegmentKind.blank.language + Token.comment.language := by
      rcases hk with rfl | rfl
      · exact .inl hlongest.mem
      · exact .inr hlongest.mem
    refine ⟨text ++ first, ?_, gapped, hls, hgaps, (List.append_assoc _ _ _).symm⟩
    rw [gap, ← Language.one_add_self_mul_kstar_eq_kstar]
    exact .inr (Language.append_mem_mul htext hfirst)
  | @lexeme o t text _ ls _ _ _ ih =>
    obtain ⟨first, hfirst, gapped, rfl, hgaps, rfl⟩ := ih
    refine ⟨[], Language.nil_mem_kstar _, (⟨t, ⟨o, o + byteLength text⟩, text⟩, first) :: gapped, rfl,
      List.forall_mem_cons.2 ⟨hfirst, hgaps⟩, ?_⟩
    rw [List.nil_append, List.flatMap_cons, List.append_assoc]

/-- Where a source cannot be cut any further. -/
theorem stray_of_tokenize {e : Stray} (h : tokenize source = .error e) : ∃ before after,
    source = before ++ e.found :: after ∧ e.offset = byteLength before ∧
    (∃ ls, tokenize before = .ok ls) ∧
    ∀ (k : SegmentKind) (word : List Char), word ∈ k.language → ¬ word <+: e.found :: after := by
  obtain ⟨ls, rest, hitems⟩ := mapM_id_eq_error h
  obtain ⟨S, s, T, hsegments, hls, hs, -⟩ := itemsFrom_eq_append (o := 0) hitems
  obtain ⟨b, rfl, hb, hcut⟩ := segments_cut hsegments
  obtain ⟨c, tail, after, rfl, htext, hstart, hkind, -⟩ := segments_eq_cons hb
  have hstray : s.kind = .stray ∧ e = ⟨s.start, c⟩ := by
    unfold Segment.item? at hs
    split at hs <;> cases hs
    next hk => exact ⟨hk, by rw [htext]; rfl⟩
  obtain ⟨hk, rfl⟩ := hstray
  rw [hk] at hkind
  refine ⟨S.flatMap Segment.text, tail ++ after, ?_, ?_, ⟨ls, ?_⟩, fun k word hword => ?_⟩
  · rw [htext, List.cons_append]
  · rw [hstart, Nat.zero_add]
  · have hfront := hcut [] quiet_nil
    rw [List.append_nil, itemsFrom_nil, List.append_nil, hls] at hfront
    exact scanned_of_tokenize.2 (scanned_iff.2 hfront)
  · exact segmentAt_stray (congrArg Prod.fst hkind) hword

end

/-- Tokens are cut by longest match and nothing is lost.  The lexemes of a source are those that
longest match gives, and no others: in order, each where its span says, not a comment, and the
longest word of any pattern there, with nothing but blanks and comments around them.  A source has
none if there is a character in it, before which it has lexemes, where no pattern has a word. -/
theorem longest_match (source : List Char) :
    (∀ ls, tokenize source = .ok ls ↔ Scanned 0 source ls) ∧
    match tokenize source with
    | .ok ls => InOrder ls ∧
        (∀ l ∈ ls, ∃ before after, source = before ++ l.text ++ after ∧
          l.span = ⟨byteLength before, byteLength before + byteLength l.text⟩ ∧
          l.token ≠ .comment ∧ Longest (.token l.token) l.text after) ∧
        ∃ first ∈ gap, ∃ gapped : List (Lexeme × List Char),
          gapped.map Prod.fst = ls ∧ (∀ x ∈ gapped, x.2 ∈ gap) ∧
          source = first ++ gapped.flatMap fun x => x.1.text ++ x.2
    | .error e => ∃ before after, source = before ++ e.found :: after ∧
        e.offset = byteLength before ∧ (∃ ls, tokenize before = .ok ls) ∧
        ∀ (k : SegmentKind) (word : List Char), word ∈ k.language →
          ¬ word <+: e.found :: after := by
  refine ⟨fun ls => scanned_of_tokenize, ?_⟩
  cases h : tokenize source with
  | error e => exact stray_of_tokenize h
  | ok ls =>
    have hscanned := scanned_of_tokenize.1 h
    refine ⟨inOrder_of_items (scanned_iff.1 hscanned), fun l hl => ?_, hscanned.gaps⟩
    obtain ⟨before, after, hcs, hspan, hrest⟩ := hscanned.longest hl
    rw [Nat.zero_add] at hspan
    exact ⟨before, after, hcs, hspan, hrest⟩

/-- A flat with an octave, points with no digit on one side, and minus signs before and behind. -/
theorem longest_match_backs_off :
    (∃ ls, Scanned 0 "Bb-1.5 //é\n-2..C/".toList ls ∧ ls.map Lexeme.word =
      [(.noteName, "Bb-1".toList), (.dot, ['.']), (.number, ['5']), (.number, ['-', '2']),
        (.dot, ['.']), (.dot, ['.']), (.noteName, ['C']), (.divide, ['/'])]) ∧
    ∃ before after, "// é\n C-.5".toList = before ++ '-' :: after ∧ byteLength before = 8 ∧
      ∀ (k : SegmentKind) (word : List Char), word ∈ k.language → ¬ word <+: '-' :: after := by
  have hgood : ((tokenize "Bb-1.5 //é\n-2..C/".toList).toOption.map (·.map Lexeme.word)) =
      some [(.noteName, "Bb-1".toList), (.dot, ['.']), (.number, ['5']), (.number, ['-', '2']),
        (.dot, ['.']), (.dot, ['.']), (.noteName, ['C']), (.divide, ['/'])] := by decide +kernel
  have hbad : tokenize "// é\n C-.5".toList = .error ⟨8, '-'⟩ := by decide +kernel
  obtain ⟨ls, hls, hwords⟩ := Option.map_eq_some_iff.1 hgood
  refine ⟨⟨ls, ((longest_match _).1 ls).1 (toOption_eq_some.1 hls), hwords⟩, ?_⟩
  have hstray := (longest_match "// é\n C-.5".toList).2
  rw [hbad] at hstray
  obtain ⟨before, after, hcut, hoffset, -, hnone⟩ := hstray
  exact ⟨before, after, hcut, hoffset.symm, hnone⟩

end Stave.Score
