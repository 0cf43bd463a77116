import Stave.Clock.Tick

/-!
# The queue of a clock

Insertion keeps a queue in the order of dispatch as long as every new index is above all old ones,
and then the callbacks due by some tick are a prefix of it.

    (insert e q).Perm (e :: q)                                            (insert_perm)
    q.Pairwise Before → (∀ f ∈ q, f.index < e.index) →
      (insert e q).Pairwise Before                                        (pairwise_insert)
    q.Pairwise Before →
      q.takeWhile (·.due ≤ t) = q.filter (·.due ≤ t)                      (takeWhile_due)
    es.Pairwise (·.index < ·.index) →
      (es.mergeSort (·.due ≤ ·.due)).Pairwise Before                      (pairwise_mergeSort_due)
-/

namespace Stave

variable {κ : Type}

/-! ## Sorting by a number -/

theorem decide_key_trans {α : Type} (key : α → Nat) (a b c : α) :
    decide (key a ≤ key b) → decide (key b ≤ key c) → decide (key a ≤ key c) := by
  simp only [decide_eq_true_eq]
  omega

theorem decide_key_total {α : Type} (key : α → Nat) (a b : α) :
    decide (key a ≤ key b) || decide (key b ≤ key a) := by
  simp only [Bool.or_eq_true, decide_eq_true_eq]
  omega

/-- The same entry under another name for its callback. -/
def Entry.map {κ' : Type} (f : κ → κ') (e : Entry κ) : Entry κ' := ⟨e.due, e.index, f e.callback⟩

namespace Entry

variable {a b c e : Entry κ} {q : List (Entry κ)}

theorem Before.due_le (h : a.Before b) : a.due ≤ b.due := by
  rcases h with h | ⟨h, -⟩ <;> omega

theorem Before.trans (hab : a.Before b) (hbc : b.Before c) : a.Before c := by
  unfold Before at *
  omega

theorem Before.irrefl (a : Entry κ) : ¬ a.Before a := by
  unfold Before
  omega

theorem before_of_due_lt (h : a.due < b.due) : a.Before b := .inl h

theorem before_of_not_before (h : ¬ a.Before b) (hi : b.index < a.index) : b.Before a := by
  unfold Before at *
  omega

/-- In a queue in order nothing stands twice. -/
theorem nodup (hq : q.Pairwise Before) : q.Nodup := by
  refine hq.imp fun hab heq => ?_
  rw [heq] at hab
  exact Before.irrefl _ hab

/-- A queue in order is determined by what is in it. -/
theorem eq_of_perm {q' : List (Entry κ)} (hq : q.Pairwise Before) (hq' : q'.Pairwise Before)
    (h : q.Perm q') : q = q' := by
  refine List.Perm.eq_of_pairwise ?_ hq hq' h
  intro a b _ _ hab hba
  exact absurd (Before.trans hab hba) (Before.irrefl a)

/-- In a queue in order, what comes before stands before. -/
theorem lt_of_before (hq : q.Pairwise Before) {i j : Nat} (ha : q[i]? = some a) (hb : q[j]? = some b)
    (h : a.Before b) : i < j := by
  obtain ⟨hi, rfl⟩ := List.getElem?_eq_some_iff.1 ha
  obtain ⟨hj, rfl⟩ := List.getElem?_eq_some_iff.1 hb
  rcases Nat.lt_trichotomy i j with hlt | rfl | hgt
  · exact hlt
  · exact absurd h (Before.irrefl _)
  · have hback := List.pairwise_iff_getElem.1 hq j i hj hi hgt
    exact absurd (h.trans hback) (Before.irrefl _)

theorem exists_lt_of_before (hq : q.Pairwise Before) (ha : a ∈ q) (hb : b ∈ q) (h : a.Before b) :
    ∃ i j : Nat, i < j ∧ q[i]? = some a ∧ q[j]? = some b := by
  obtain ⟨i, hi⟩ := List.mem_iff_getElem?.1 ha
  obtain ⟨j, hj⟩ := List.mem_iff_getElem?.1 hb
  exact ⟨i, j, lt_of_before hq hi hj h, hi, hj⟩

/-! ## Insertion -/

theorem insert_perm (e : Entry κ) (q : List (Entry κ)) : (insert e q).Perm (e :: q) := by
  induction q with
  | nil => exact .refl _
  | cons f fs ih =>
    rw [insert]
    split
    · exact .refl _
    · exact (ih.cons f).trans (.swap e f fs)

theorem mem_insert : a ∈ insert e q ↔ a = e ∨ a ∈ q := by
  rw [(insert_perm e q).mem_iff, List.mem_cons]

theorem pairwise_insert (hq : q.Pairwise Before) (hi : ∀ f ∈ q, f.index < e.index) :
    (insert e q).Pairwise Before := by
  induction q with
  | nil => exact List.pairwise_singleton _ _
  | cons f fs ih =>
    obtain ⟨hf, hfs⟩ := List.pairwise_cons.1 hq
    rw [insert]
    split
    · next h =>
      refine List.pairwise_cons.2 ⟨?_, hq⟩
      intro a ha
      rcases List.mem_cons.1 ha with rfl | ha
      · exact h
      · exact h.trans (hf a ha)
    · next h =>
      refine List.pairwise_cons.2 ⟨?_, ih hfs fun a ha => hi a (List.mem_cons_of_mem _ ha)⟩
      intro a ha
      rcases mem_insert.1 ha with rfl | ha
      · exact before_of_not_before h (hi f List.mem_cons_self)
      · exact hf a ha

theorem filter_insert_of_neg {p : Entry κ → Bool} (he : ¬ p e) (q : List (Entry κ)) :
    (insert e q).filter p = q.filter p := by
  induction q with
  | nil => exact List.filter_cons_of_neg he
  | cons f fs ih =>
    rw [insert]
    split
    · exact List.filter_cons_of_neg he
    · rw [List.filter_cons, List.filter_cons, ih]

/-! ## What is due -/

theorem takeWhile_due {t : Nat} (hq : q.Pairwise Before) :
    q.takeWhile (·.due ≤ t) = q.filter (·.due ≤ t) := by
  induction q with
  | nil => rfl
  | cons f fs ih =>
    obtain ⟨hf, hfs⟩ := List.pairwise_cons.1 hq
    rw [List.takeWhile_cons, List.filter_cons]
    split
    · rw [ih hfs]
    · next h =>
      have hlate : fs.filter (·.due ≤ t) = [] := by
        rw [List.filter_eq_nil_iff]
        intro a ha hle
        apply h
        have := (hf a ha).due_le
        simp only [decide_eq_true_eq] at hle ⊢
        omega
      rw [hlate]

/-- Nothing is due if the first entry is not, or if the count of what is due says so. -/
theorem lt_due_of_idle {t n : Nat} (hq : q.Pairwise Before)
    (hn : (q.filter (·.due ≤ t)).length ≤ n) (h : n = 0 ∨ ∀ e ∈ q.head?, t < e.due) :
    ∀ e ∈ q, t < e.due := by
  intro e he
  rcases h with rfl | h
  · have hnil := List.eq_nil_of_length_eq_zero (Nat.le_zero.1 hn)
    have := List.filter_eq_nil_iff.1 hnil e he
    simpa using this
  · cases q with
    | nil => cases he
    | cons f fs =>
      have hf : t < f.due := h f rfl
      rcases List.mem_cons.1 he with rfl | he
      · exact hf
      · have := ((List.pairwise_cons.1 hq).1 e he).due_le
        omega

/-- What is due by one tick, and then what is left of it by a later one. -/
theorem filter_due_append {t u : Nat} (hq : q.Pairwise Before) (h : t ≤ u) :
    q.filter (·.due < t) ++ (q.filter (t ≤ ·.due)).filter (·.due < u) = q.filter (·.due < u) := by
  induction q with
  | nil => rfl
  | cons f fs ih =>
    obtain ⟨hf, hfs⟩ := List.pairwise_cons.1 hq
    by_cases ht : f.due < t
    · have hu : f.due < u := Nat.lt_of_lt_of_le ht h
      rw [List.filter_cons_of_pos (by simpa using ht), List.filter_cons_of_neg (by simpa using ht),
        List.filter_cons_of_pos (by simpa using hu), List.cons_append, ih hfs]
    · have hnone : (f :: fs).filter (·.due < t) = [] := by
        rw [List.filter_eq_nil_iff]
        intro a ha hlt
        apply ht
        have hle : f.due ≤ a.due := by
          rcases List.mem_cons.1 ha with rfl | ha
          · exact Nat.le_refl _
          · exact (hf a ha).due_le
        simp only [decide_eq_true_eq] at hlt
        omega
      have hall : (f :: fs).filter (t ≤ ·.due) = f :: fs := by
        rw [List.filter_eq_self]
        intro a ha
        have := List.filter_eq_nil_iff.1 hnone a ha
        simpa using this
      rw [hnone, hall, List.nil_append]

/-! ## Sorting by due tick -/

/-- A stable sort by due tick leaves the indices to decide the rest. -/
theorem pairwise_mergeSort_due {es : List (Entry κ)} (h : es.Pairwise (·.index < ·.index)) :
    (es.mergeSort (·.due ≤ ·.due)).Pairwise Before := by
  have htrans := decide_key_trans (α := Entry κ) due
  have htotal := decide_key_total (α := Entry κ) due
  induction es with
  | nil =>
    rw [List.mergeSort_nil]
    exact List.Pairwise.nil
  | cons e es ih =>
    obtain ⟨he, hes⟩ := List.pairwise_cons.1 h
    obtain ⟨l, l', hcons, hsort, hl⟩ := List.mergeSort_cons htrans htotal e es
    have hle := List.pairwise_mergeSort htrans htotal (e :: es)
    rw [hcons] at hle ⊢
    obtain ⟨hl₁, hl', hll'⟩ := List.pairwise_append.1 (hsort ▸ ih hes)
    refine List.pairwise_append.2 ⟨hl₁, List.pairwise_cons.2 ⟨?_, hl'⟩, ?_⟩
    · intro f hf
      have hdue : e.due ≤ f.due := by
        have := (List.pairwise_cons.1 (List.pairwise_append.1 hle).2.1).1 f hf
        simpa using this
      have hindex : e.index < f.index := by
        refine he f ((List.mergeSort_perm es (·.due ≤ ·.due)).mem_iff.1 ?_)
        rw [hsort]
        exact List.mem_append_right _ hf
      unfold Before
      omega
    · intro a ha f hf
      rcases List.mem_cons.1 hf with rfl | hf
      · apply before_of_due_lt
        have := hl a ha
        simpa using this
      · exact hll' a ha f hf

end Entry

end Stave
