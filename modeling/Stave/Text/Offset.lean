/-!
# Byte offsets in text

Positions in a text are counted in bytes of its UTF-8 form.  A text can be cut at an offset only
where a character begins or the text ends.

    splitAt? n cs = some (l, r) ↔ l ++ r = cs ∧ byteLength l = n       (splitAt?_eq_some_iff)
-/

namespace Stave.Text

/-- Number of bytes of the UTF-8 form. -/
def byteLength : List Char → Nat
  | [] => 0
  | c :: cs => c.utf8Size + byteLength cs

/-- The characters before and after a byte offset; `none` inside a character or past the end. -/
def splitAt? : Nat → List Char → Option (List Char × List Char)
  | 0, cs => some ([], cs)
  | _ + 1, [] => none
  | n + 1, c :: cs =>
    if c.utf8Size ≤ n + 1 then (splitAt? (n + 1 - c.utf8Size) cs).map fun (l, r) => (c :: l, r)
    else none

/-- The text between two byte offsets; `none` unless both are cuts, in order. -/
def slice? (start stop : Nat) (cs : List Char) : Option (List Char) :=
  if start ≤ stop then
    (splitAt? start cs).bind fun (_, r) => (splitAt? (stop - start) r).map Prod.fst
  else none

/-! ## Lemmas -/

@[simp] theorem byteLength_nil : byteLength [] = 0 := rfl

@[simp] theorem byteLength_cons (c : Char) (cs : List Char) :
    byteLength (c :: cs) = c.utf8Size + byteLength cs := rfl

@[simp] theorem byteLength_append (a b : List Char) :
    byteLength (a ++ b) = byteLength a + byteLength b := by
  induction a with
  | nil => simp
  | cons c a ih => simp [ih, Nat.add_assoc]

theorem splitAt?_byteLength (l r : List Char) : splitAt? (byteLength l) (l ++ r) = some (l, r) := by
  induction l with
  | nil => cases r <;> rfl
  | cons c l ih =>
    have hc := c.utf8Size_pos
    obtain ⟨m, hm⟩ : ∃ m, byteLength (c :: l) = m + 1 := ⟨_, (Nat.succ_pred (by simp; omega)).symm⟩
    rw [hm, List.cons_append, splitAt?]
    rw [byteLength_cons] at hm
    rw [if_pos (by omega), show m + 1 - c.utf8Size = byteLength l by omega, ih]
    rfl

theorem splitAt?_sound {n : Nat} {cs l r : List Char} (h : splitAt? n cs = some (l, r)) :
    l ++ r = cs ∧ byteLength l = n := by
  induction n, cs using splitAt?.induct generalizing l r with
  | case1 cs => simp [splitAt?] at h; obtain ⟨rfl, rfl⟩ := h; simp
  | case2 n => simp [splitAt?] at h
  | case3 n c cs hc ih =>
    simp only [splitAt?, hc, if_true, Option.map_eq_some_iff] at h
    obtain ⟨⟨l', r'⟩, h', e⟩ := h
    cases e
    obtain ⟨h1, h2⟩ := ih h'
    exact ⟨by simp [h1], by simp [h2]; omega⟩
  | case4 n c cs hc => simp [splitAt?, hc] at h

theorem splitAt?_eq_some_iff {n : Nat} {cs l r : List Char} :
    splitAt? n cs = some (l, r) ↔ l ++ r = cs ∧ byteLength l = n :=
  ⟨splitAt?_sound, fun ⟨h1, h2⟩ => h1 ▸ h2 ▸ splitAt?_byteLength l r⟩

end Stave.Text
