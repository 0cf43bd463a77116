import Mathlib.Data.List.TakeWhile
import Stave.Proofs.Score.Cut

/-!
# Cutting a source between its items

What the lexer sees in the front of a source does not depend on what is behind it: cut anywhere
between two items, the front has the same items when nothing or a new line follows, and the rest
the same items at the same places.

    itemsFrom o cs = A ++ x :: R → cs = before ++ after, cut where x begins, and
      itemsFrom o (before ++ d) = A ++ itemsFrom x.offset d for a quiet d       (cut_before)
    itemsFrom o cs = A ++ .ok l :: R → the same where l ends                     (cut_after)
    segments (o + k) cs = the segments of segments o cs, k bytes further         (segments_shift)
-/

namespace Stave.Score

open Stave.Text

/-- Nothing, or a new line: no token but a run of blanks goes on into it. -/
def Quiet (cs : List Char) : Prop := ∀ c ∈ cs.head?, c = '\n'

theorem quiet_nil : Quiet [] := nofun

theorem quiet_newline (cs : List Char) : Quiet ('\n' :: cs) := by
  intro c hc
  cases hc
  rfl

theorem Quiet.stops {cs : List Char} (h : Quiet cs) : Stops cs := by
  intro c hc
  rw [h c hc]
  rfl

/-! ## Lengths -/

/-- A length of something at the start of a text: there is as much, and it is the same whatever is
behind a text that holds all of it, if that is quiet. -/
structure Local (f : List Char → Nat) : Prop where
  fits : ∀ cs, f cs ≤ cs.length
  stays : ∀ {a b d : List Char}, f (a ++ b) ≤ a.length → Quiet d → f (a ++ d) = f (a ++ b)

theorem local_runLength {test : Char → Bool} (h : test '\n' = false) : Local (runLength test) where
  fits cs := (List.takeWhile_sublist test).length_le
  stays := by
    intro a b d hfits hd
    have hzero : runLength test d = 0 :=
      runLength_append (a := []) nofun fun c hc => by rw [hd c hc, h]
    induction a with
    | nil => exact hzero.trans (Nat.le_zero.1 hfits).symm
    | cons c a ih =>
      have hcons : ∀ cs, runLength test (c :: cs) =
          if test c then runLength test cs + 1 else 0 := by
        intro cs
        rw [runLength, List.takeWhile_cons]
        split <;> rfl
      rw [List.cons_append, hcons] at hfits ⊢
      rw [List.cons_append, hcons]
      by_cases hc : test c
      · rw [if_pos hc] at hfits ⊢
        rw [if_pos hc, ih (Nat.le_of_succ_le_succ hfits)]
      · rw [if_neg hc, if_neg hc]

/-- One length after another. -/
theorem Local.append {f g : List Char → Nat} (hf : Local f) (hg : Local g) :
    Local fun cs => f cs + g (cs.drop (f cs)) where
  fits cs := by
    have hfirst := hf.fits cs
    have hsecond := hg.fits (cs.drop (f cs))
    rw [List.length_drop] at hsecond
    omega
  stays := by
    intro a b d hfits hd
    have hfirst : f (a ++ b) ≤ a.length := by omega
    rw [List.drop_append_of_le_length hfirst] at hfits
    have hsecond : g (a.drop (f (a ++ b)) ++ b) ≤ (a.drop (f (a ++ b))).length := by
      rw [List.length_drop]
      omega
    rw [hf.stays hfirst hd, List.drop_append_of_le_length hfirst,
      List.drop_append_of_le_length hfirst, hg.stays hsecond hd]

theorem local_isDigit : Local (runLength Char.isDigit) := local_runLength rfl

/-- A sign or a point counts if digits follow it. -/
theorem local_digitsAfter {f : List Char → Nat} (sign : Char)
    (hsign : ∀ cs, f (sign :: cs) =
      match runLength Char.isDigit cs with
      | 0 => 0
      | n => n + 1) :
    (∀ cs, f (sign :: cs) ≤ cs.length + 1) ∧
      ∀ {a b d : List Char}, f (sign :: (a ++ b)) ≤ a.length + 1 → Quiet d →
        f (sign :: (a ++ d)) = f (sign :: (a ++ b)) := by
  constructor
  · intro cs
    rw [hsign]
    split
    · exact Nat.zero_le _
    · exact Nat.succ_le_succ (local_isDigit.fits cs)
  · intro a b d hfits hd
    have hrun : runLength Char.isDigit (a ++ b) ≤ a.length := by
      rw [hsign] at hfits
      split at hfits
      · next hzero => exact hzero ▸ Nat.zero_le _
      · exact Nat.le_of_succ_le_succ hfits
    rw [hsign, hsign, local_isDigit.stays hrun hd]

theorem local_placesLength : Local placesLength := by
  obtain ⟨hfits, hstays⟩ := local_digitsAfter '.' (f := placesLength) fun cs => rfl
  constructor
  · intro cs
    unfold placesLength
    split
    · exact hfits _
    · exact Nat.zero_le _
  · intro a b d hab hd
    cases a with
    | nil => exact hd.stops.placesLength.trans (Nat.le_zero.1 hab).symm
    | cons c a =>
      by_cases hc : c = '.'
      · subst hc
        exact hstays hab hd
      · have hzero : ∀ cs, placesLength (c :: cs) = 0 := by
          intro cs
          unfold placesLength
          split
          · next heq => exact absurd (List.cons.inj heq).1 hc
          · rfl
        rw [List.cons_append, List.cons_append, hzero, hzero]

theorem local_signedLength : Local signedLength := by
  obtain ⟨hfits, hstays⟩ := local_digitsAfter '-' (f := signedLength) fun cs => rfl
  have hunsigned : ∀ cs, (∀ tail, cs ≠ '-' :: tail) → signedLength cs = runLength Char.isDigit cs := by
    intro cs hcs
    unfold signedLength
    split
    · next tail => exact absurd rfl (hcs tail)
    · rfl
  constructor
  · intro cs
    by_cases hcs : ∃ tail, cs = '-' :: tail
    · obtain ⟨tail, rfl⟩ := hcs
      exact hfits tail
    · rw [hunsigned cs fun tail htail => hcs ⟨tail, htail⟩]
      exact local_isDigit.fits cs
  · intro a b d hab hd
    cases a with
    | nil => exact hd.stops.signedLength.trans (Nat.le_zero.1 hab).symm
    | cons c a =>
      by_cases hc : c = '-'
      · subst hc
        exact hstays hab hd
      · have hrun : ∀ cs, signedLength (c :: cs) = runLength Char.isDigit (c :: cs) :=
          fun cs => hunsigned _ fun tail heq => hc (List.cons.inj heq).1
        rw [List.cons_append, hrun] at hab ⊢
        rw [List.cons_append, hrun]
        exact local_isDigit.stays (a := c :: a) hab hd

theorem local_nameTailLength : Local nameTailLength :=
  (local_runLength rfl).append local_signedLength

theorem local_numberLength : Local numberLength := by
  have hplaces := local_signedLength.append local_placesLength
  have hcases : ∀ cs, numberLength cs = if signedLength cs = 0 then 0
      else signedLength cs + placesLength (cs.drop (signedLength cs)) := by
    intro cs
    unfold numberLength
    split
    · next h => rw [if_pos h]
    · next h => rw [if_neg h]
  constructor
  · intro cs
    rw [hcases]
    split
    · exact Nat.zero_le _
    · exact hplaces.fits cs
  · intro a b d hab hd
    rw [hcases] at hab
    by_cases hzero : signedLength (a ++ b) = 0
    · have hsame := local_signedLength.stays (hzero ▸ Nat.zero_le _) hd
      rw [hcases, hcases, hsame, if_pos hzero, if_pos hzero]
    · rw [if_neg hzero] at hab
      have hsigned : signedLength (a ++ b) ≤ a.length := by omega
      have hsame := local_signedLength.stays hsigned hd
      rw [hcases, hcases, if_neg hzero, if_neg (by rwa [hsame])]
      exact hplaces.stays hab hd

/-! ## One segment -/

section

variable {c : Char} {a b d : List Char}

theorem segmentAt_blank (h : isBlank c = true) (cs : List Char) :
    segmentAt c cs = (.blank, runLength isBlank cs) := if_pos h

theorem segmentAt_comment (cs : List Char) : segmentAt '/' ('/' :: cs) =
    (.token .comment, runLength (!Span.isLineBreak ·) ('/' :: cs)) := rfl

/-- A segment that is neither blank nor a comment, by its first character. -/
theorem segmentAt_other (hblank : isBlank c = false) {cs : List Char}
    (hc : ¬ (c = '/' ∧ cs.head? = some '/')) : segmentAt c cs =
      if (letterClass? c).isSome then (.token .noteName, nameTailLength cs)
      else match numberLength (c :: cs) with
        | n + 1 => (.token .number, n)
        | 0 =>
          match Token.ofSymbol? c with
          | some t => (.token t, 0)
          | none => (.stray, 0) := by
  have hfirst : ¬ isBlank c = true := ne_true_of_eq_false hblank
  exact (if_neg hfirst).trans (if_neg hc)

theorem segmentAt_fits (c : Char) (cs : List Char) : (segmentAt c cs).2 ≤ cs.length := by
  unfold segmentAt
  split
  · exact (List.takeWhile_sublist _).length_le
  · split
    · exact (List.takeWhile_sublist _).length_le
    · split
      · exact local_nameTailLength.fits cs
      · split
        · next n hn =>
          have := local_numberLength.fits (c :: cs)
          rw [hn] at this
          exact Nat.le_of_succ_le_succ this
        · split <;> exact Nat.zero_le _

/-- A segment that is not blank is the same whatever quiet text follows what holds it. -/
theorem segmentAt_stays (hblank : isBlank c = false) (h : (segmentAt c (a ++ b)).2 ≤ a.length)
    (hd : Quiet d) : segmentAt c (a ++ d) = segmentAt c (a ++ b) := by
  by_cases hslash : c = '/' ∧ (a ++ b).head? = some '/'
  · obtain ⟨rfl, hhead⟩ := hslash
    cases a with
    | nil =>
      -- the second slash belongs to the comment, so it cannot be behind the text
      obtain ⟨b, rfl⟩ : ∃ tail, b = '/' :: tail := List.head?_eq_some_iff.1 hhead
      rw [List.nil_append, segmentAt_comment] at h
      cases h
    | cons x a =>
      cases hhead
      rw [List.cons_append, segmentAt_comment] at h
      rw [List.cons_append, List.cons_append, segmentAt_comment, segmentAt_comment]
      exact congrArg (Prod.mk _) ((local_runLength rfl).stays (a := '/' :: a) h hd)
  · have hslash' : ¬ (c = '/' ∧ (a ++ d).head? = some '/') := by
      rintro ⟨rfl, hhead⟩
      cases a with
      | nil => cases hd '/' hhead
      | cons x a => exact hslash ⟨rfl, hhead⟩
    rw [segmentAt_other hblank hslash] at h
    rw [segmentAt_other hblank hslash, segmentAt_other hblank hslash']
    by_cases hletter : (letterClass? c).isSome
    · rw [if_pos hletter] at h
      rw [if_pos hletter, if_pos hletter, local_nameTailLength.stays h hd]
    · rw [if_neg hletter] at h
      have hnumber : numberLength (c :: a ++ b) ≤ (c :: a).length := by
        rw [List.cons_append]
        split at h
        · next n hn =>
          rw [hn]
          exact Nat.succ_le_succ h
        · next hn =>
          rw [hn]
          exact Nat.zero_le _
      have hsame := local_numberLength.stays hnumber hd
      rw [List.cons_append, List.cons_append] at hsame
      rw [if_neg hletter, if_neg hletter, hsame]

end

/-! ## Blanks -/

theorem itemsFrom_nil (o : Nat) : itemsFrom o [] = [] := by
  rw [itemsFrom, segments]
  rfl

theorem itemsFrom_cons_blank {c : Char} (hc : isBlank c = true) (o : Nat) (cs : List Char) :
    itemsFrom o (c :: cs) = itemsFrom (o + byteLength (c :: cs.take (runLength isBlank cs)))
      (cs.drop (runLength isBlank cs)) := by
  rw [itemsFrom, segments, segmentAt_blank hc]
  rfl

/-- A run of blanks may be passed over one by one. -/
theorem itemsFrom_blank {c : Char} (hc : isBlank c = true) (o : Nat) (cs : List Char) :
    itemsFrom o (c :: cs) = itemsFrom (o + byteLength [c]) cs := by
  rw [itemsFrom_cons_blank hc]
  cases cs with
  | nil => rfl
  | cons x cs =>
    by_cases hx : isBlank x
    · have hrun : runLength isBlank (x :: cs) = runLength isBlank cs + 1 := by
        rw [runLength, List.takeWhile_cons_of_pos hx]
        rfl
      rw [itemsFrom_cons_blank hx, hrun, List.take_succ_cons, List.drop_succ_cons, Nat.add_assoc,
        ← byteLength_append]
      rfl
    · have hrun : runLength isBlank (x :: cs) = 0 := by
        rw [runLength, List.takeWhile_cons_of_neg hx]
        rfl
      rw [hrun]
      rfl

theorem itemsFrom_blanks {bs : List Char} (h : ∀ c ∈ bs, isBlank c = true) (o : Nat)
    (cs : List Char) : itemsFrom o (bs ++ cs) = itemsFrom (o + byteLength bs) cs := by
  induction bs generalizing o with
  | nil => rfl
  | cons c bs ih =>
    obtain ⟨hc, hbs⟩ := List.forall_mem_cons.1 h
    rw [List.cons_append, itemsFrom_blank hc, ih hbs, Nat.add_assoc, ← byteLength_append]
    rfl

/-! ## Between segments -/

theorem mem_of_runLength {test : Char → Bool} {a b : List Char}
    (h : runLength test (a ++ b) = a.length) : ∀ c ∈ a, test c = true := by
  have hsame : (a ++ b).takeWhile test = a := by
    have htake := List.prefix_iff_eq_take.1 (List.takeWhile_prefix test (l := a ++ b))
    rw [runLength] at h
    rwa [h, List.take_left] at htake
  intro c hc
  rw [← hsame] at hc
  exact List.mem_takeWhile_imp hc

section

variable {o : Nat} {cs : List Char} {s : Segment} {S T : List Segment}

theorem segments_eq_cons (h : segments o cs = s :: T) : ∃ c tail after,
    cs = s.text ++ after ∧ s.text = c :: tail ∧ s.start = o ∧
      segmentAt c (tail ++ after) = (s.kind, tail.length) ∧
      segments (o + byteLength s.text) after = T := by
  cases cs with
  | nil =>
    rw [segments] at h
    cases h
  | cons c cs =>
    have hfits := segmentAt_fits c cs
    rw [segments] at h
    rcases hs : segmentAt c cs with ⟨kind, n⟩
    rw [hs] at h hfits
    obtain ⟨rfl, rfl⟩ := List.cons.inj h
    refine ⟨c, cs.take n, cs.drop n, ?_, rfl, rfl, ?_, rfl⟩
    · rw [List.cons_append, List.take_append_drop]
    · rw [List.take_append_drop, List.length_take_of_le hfits, hs]

/-- The segment at the front of a text is passed over. -/
theorem itemsFrom_segment {c : Char} {tail a b d : List Char} {kind : SegmentKind}
    (h : segmentAt c (tail ++ (a ++ b)) = (kind, tail.length)) (hd : Quiet d) (o : Nat) :
    itemsFrom o (c :: tail ++ (a ++ d)) = (Segment.mk kind o (c :: tail)).item?.toList ++
      itemsFrom (o + byteLength (c :: tail)) (a ++ d) := by
  cases hblank : isBlank c with
  | true =>
    rw [segmentAt_blank hblank] at h
    obtain ⟨rfl, hrun⟩ := Prod.mk.inj h
    have hall : ∀ x ∈ c :: tail, isBlank x = true :=
      List.forall_mem_cons.2 ⟨hblank, mem_of_runLength hrun⟩
    exact itemsFrom_blanks hall o (a ++ d)
  | false =>
    have hstays : segmentAt c (tail ++ (a ++ d)) = (kind, tail.length) := by
      rw [← List.append_assoc] at h ⊢
      rw [segmentAt_stays hblank (b := b) _ hd, h]
      rw [h, List.length_append]
      exact Nat.le_add_right _ _
    rw [itemsFrom, segments_cons o c tail _ hstays, List.filterMap_cons]
    cases (Segment.mk kind o (c :: tail)).item? <;> rfl

/-- Between two segments a text can be cut, and the front is cut into the same segments when
something quiet follows. -/
theorem segments_cut (h : segments o cs = S ++ T) : ∃ b, cs = S.flatMap Segment.text ++ b ∧
    segments (o + byteLength (S.flatMap Segment.text)) b = T ∧
    ∀ d, Quiet d → itemsFrom o (S.flatMap Segment.text ++ d) =
      S.filterMap Segment.item? ++ itemsFrom (o + byteLength (S.flatMap Segment.text)) d := by
  induction S generalizing o cs with
  | nil => exact ⟨cs, rfl, h, fun d _ => rfl⟩
  | cons s S ih =>
    obtain ⟨c, tail, after, rfl, htext, rfl, hs, hrest⟩ := segments_eq_cons h
    obtain ⟨b, rfl, hb, hcut⟩ := ih hrest
    rw [List.flatMap_cons, byteLength_append, ← Nat.add_assoc]
    refine ⟨b, (List.append_assoc _ _ _).symm, hb, ?_⟩
    intro d hd
    have hitem := itemsFrom_segment hs hd s.start
    rw [← htext, hcut d hd] at hitem
    rw [List.append_assoc, hitem, List.filterMap_cons]
    cases s.item? <;> rfl

end

/-! ## Between items -/

/-- Where an item begins. -/
def itemStart : Item → Nat
  | .ok l => l.span.start
  | .error e => e.offset

theorem Segment.item?_start {s : Segment} {x : Item} (h : s.item? = some x) :
    itemStart x = s.start := by
  unfold Segment.item? at h
  split at h <;> cases h <;> rfl

theorem Segment.item?_lexeme {s : Segment} {l : Lexeme} (h : s.item? = some (.ok l)) :
    l.span = ⟨s.start, s.start + byteLength s.text⟩ ∧ l.text = s.text := by
  unfold Segment.item? at h
  split at h <;> cases h
  exact ⟨rfl, rfl⟩

section

variable {o : Nat} {cs : List Char} {A R : List Item} {x : Item} {l : Lexeme}

theorem itemsFrom_eq_append (h : itemsFrom o cs = A ++ x :: R) : ∃ S s T,
    segments o cs = S ++ s :: T ∧ S.filterMap Segment.item? = A ∧ s.item? = some x ∧
      T.filterMap Segment.item? = R := by
  obtain ⟨S, T, hsegments, hS, hT⟩ := List.filterMap_eq_append_iff.1 h
  obtain ⟨U, s, V, rfl, hU, hs, hV⟩ := List.filterMap_eq_cons_iff.1 hT
  refine ⟨S ++ U, s, V, ?_, ?_, hs, hV⟩
  · rw [hsegments, List.append_assoc]
  · rw [List.filterMap_append, hS, List.filterMap_eq_nil_iff.2 hU, List.append_nil]

/-- A lexeme stands where its span says. -/
theorem lexeme_at (h : itemsFrom o cs = A ++ .ok l :: R) : ∃ before after,
    cs = before ++ l.text ++ after ∧ l.text ≠ [] ∧
      l.span = ⟨o + byteLength before, o + byteLength before + byteLength l.text⟩ := by
  obtain ⟨S, s, T, hsegments, rfl, hs, rfl⟩ := itemsFrom_eq_append h
  obtain ⟨b, rfl, hb, -⟩ := segments_cut hsegments
  obtain ⟨c, tail, after, rfl, htext, hstart, -, -⟩ := segments_eq_cons hb
  obtain ⟨hspan, hsame⟩ := Segment.item?_lexeme hs
  refine ⟨S.flatMap Segment.text, after, ?_, ?_, ?_⟩
  · rw [hsame, List.append_assoc]
  · rw [hsame, htext]
    exact List.cons_ne_nil c tail
  · rw [hspan, hsame, hstart]

theorem cut_before (h : itemsFrom o cs = A ++ x :: R) : ∃ before after, cs = before ++ after ∧
    itemStart x = o + byteLength before ∧ itemsFrom (itemStart x) after = x :: R ∧
    ∀ d, Quiet d → itemsFrom o (before ++ d) = A ++ itemsFrom (itemStart x) d := by
  obtain ⟨S, s, T, hsegments, rfl, hs, rfl⟩ := itemsFrom_eq_append h
  obtain ⟨b, rfl, hb, hcut⟩ := segments_cut hsegments
  obtain ⟨c, tail, after, rfl, htext, hstart, -, hrest⟩ := segments_eq_cons hb
  have hx := (Segment.item?_start hs).trans hstart
  refine ⟨_, _, rfl, hx, ?_, ?_⟩
  · rw [hx, itemsFrom, hb, List.filterMap_cons, hs]
  · rw [hx]
    exact hcut

theorem cut_after (h : itemsFrom o cs = A ++ .ok l :: R) : ∃ before after, cs = before ++ after ∧
    l.span.stop = o + byteLength before ∧ itemsFrom l.span.stop after = R ∧
    ∀ d, Quiet d → itemsFrom o (before ++ d) = A ++ .ok l :: itemsFrom l.span.stop d := by
  obtain ⟨S, s, T, hsegments, rfl, hs, rfl⟩ := itemsFrom_eq_append h
  obtain ⟨hspan, -⟩ := Segment.item?_lexeme hs
  have hstart : s.start = o + byteLength (S.flatMap Segment.text) := by
    obtain ⟨b, -, hb, -⟩ := segments_cut hsegments
    obtain ⟨c, tail, after, -, -, hstart, -⟩ := segments_eq_cons hb
    exact hstart
  rw [List.append_cons] at hsegments
  obtain ⟨b, rfl, hb, hcut⟩ := segments_cut hsegments
  have hstop : l.span.stop = o + byteLength ((S ++ [s]).flatMap Segment.text) := by
    rw [hspan, hstart, List.flatMap_append, byteLength_append, List.flatMap_singleton, Nat.add_assoc]
  refine ⟨_, b, rfl, hstop, ?_, ?_⟩
  · rw [hstop, itemsFrom, hb]
  · intro d hd
    rw [hcut d hd, hstop, List.filterMap_append, List.append_assoc, List.filterMap_cons, hs]
    rfl

/-- At the end of a source nothing is cut. -/
theorem cut_end {d : List Char} (hd : Quiet d) :
    itemsFrom o (cs ++ d) = itemsFrom o cs ++ itemsFrom (o + byteLength cs) d := by
  obtain ⟨b, -, -, hcut⟩ := segments_cut (List.append_nil (segments o cs)).symm
  have h := hcut d hd
  rwa [flatMap_text_segments] at h

end

/-! ## Moving -/

/-- The segments of a text are the same wherever it stands. -/
theorem segments_shift (o k : Nat) (cs : List Char) :
    segments (o + k) cs = (segments o cs).map fun s => { s with start := s.start + k } := by
  induction o, cs using segments.induct with
  | case1 o => simp [segments]
  | case2 o c tail kind n h text ih =>
    rw [segments, segments, h, List.map_cons]
    have hsame : o + k + byteLength (c :: tail.take n) = o + byteLength (c :: tail.take n) + k := by omega
    dsimp only
    rw [hsame, ih]

end Stave.Score
