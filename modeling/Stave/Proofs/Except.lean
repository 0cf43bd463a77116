/-!
# Computations that may fail

What a bind that succeeded went through, and how a change of the fault passes through a bind.
-/

namespace Stave

variable {α β ε ε' : Type}

section

variable {a : α} {b : β}

theorem bind_eq_ok {x : Except ε α} {f : α → Except ε β} (h : x >>= f = .ok b) :
    ∃ a, x = .ok a ∧ f a = .ok b := by
  cases x with
  | error e => cases h
  | ok a => exact ⟨a, rfl, h⟩

theorem bind_eq_ok_iff {x : Except ε α} {f : α → Except ε β} :
    x >>= f = .ok b ↔ ∃ a, x = .ok a ∧ f a = .ok b := by
  refine ⟨bind_eq_ok, ?_⟩
  rintro ⟨a, rfl, h⟩
  exact h

theorem pure_eq_ok_iff {a' : α} : (pure a : Except ε α) = .ok a' ↔ a' = a := by
  refine ⟨fun h => (Except.ok.inj h).symm, ?_⟩
  rintro rfl
  rfl

theorem bind_pure_eq_ok {x : Except ε α} {f : α → β} (h : (x >>= fun a => pure (f a)) = .ok b) :
    ∃ a, x = .ok a ∧ b = f a := by
  obtain ⟨a, ha, hb⟩ := bind_eq_ok h
  cases hb
  exact ⟨a, ha, rfl⟩

theorem bind_pure_eq_ok_iff {x : Except ε α} {f : α → β} :
    (x >>= fun a => pure (f a)) = .ok b ↔ ∃ a, x = .ok a ∧ b = f a := by
  refine ⟨bind_pure_eq_ok, ?_⟩
  rintro ⟨a, rfl, rfl⟩
  rfl

theorem bind_eq_error {x : Except ε α} {f : α → Except ε β} {e : ε} (h : x >>= f = .error e) :
    x = .error e ∨ ∃ a, x = .ok a ∧ f a = .error e := by
  cases x with
  | error e' =>
    cases h
    exact .inl rfl
  | ok a => exact .inr ⟨a, rfl, h⟩

theorem bind_pure_eq_error {x : Except ε α} {f : α → β} {e : ε}
    (h : (x >>= fun a => pure (f a)) = .error e) : x = .error e := by
  rcases bind_eq_error h with hx | ⟨a, -, hpure⟩
  · exact hx
  · cases hpure

theorem mapError_eq_ok {x : Except ε α} {f : ε → ε'} : x.mapError f = .ok a ↔ x = .ok a := by
  constructor
  · intro h
    cases x with
    | error e => cases h
    | ok b => rw [Except.ok.inj h]
  · rintro rfl
    rfl

theorem mapError_eq_error {x : Except ε α} {f : ε → ε'} {e : ε'} :
    x.mapError f = .error e ↔ ∃ e', x = .error e' ∧ f e' = e := by
  constructor
  · intro h
    cases x with
    | error e' => exact ⟨e', rfl, Except.error.inj h⟩
    | ok a => cases h
  · rintro ⟨e', rfl, rfl⟩
    rfl

theorem toOption_eq_some {x : Except ε α} : x.toOption = some a ↔ x = .ok a := by
  cases x <;> simp [Except.toOption]

theorem mapM_id_eq_ok {xs : List (Except ε α)} {as : List α} (h : xs.mapM id = .ok as) :
    xs = as.map .ok := by
  induction xs generalizing as with
  | nil =>
    cases h
    rfl
  | cons x xs ih =>
    rw [List.mapM_cons] at h
    obtain ⟨a, rfl, h⟩ := bind_eq_ok h
    obtain ⟨as, has, rfl⟩ := bind_pure_eq_ok h
    rw [ih has, List.map_cons]

theorem mapM_id_map_ok (as : List α) : (as.map (Except.ok (ε := ε))).mapM id = .ok as := by
  induction as with
  | nil => rfl
  | cons a as ih =>
    rw [List.map_cons, List.mapM_cons, ih]
    rfl

/-- What failed first, and all that did not before it. -/
theorem mapM_id_eq_error {xs : List (Except ε α)} {e : ε} (h : xs.mapM id = .error e) :
    ∃ (as : List α) (rest : List (Except ε α)), xs = as.map .ok ++ .error e :: rest := by
  induction xs with
  | nil => cases h
  | cons x xs ih =>
    rw [List.mapM_cons] at h
    rcases bind_eq_error h with rfl | ⟨a, rfl, h⟩
    · exact ⟨[], xs, rfl⟩
    · obtain ⟨as, rest, rfl⟩ := ih (bind_pure_eq_error h)
      exact ⟨a :: as, rest, rfl⟩

/-- A traversal that succeeds has succeeded on everything. -/
theorem mapM_eq_map {f : β → Except ε α} {g : β → α} (hg : ∀ x y, f x = .ok y → y = g x)
    {xs : List β} {ys : List α} (h : xs.mapM f = .ok ys) :
    ys = xs.map g ∧ ∀ x ∈ xs, ∃ y, f x = .ok y := by
  induction xs generalizing ys with
  | nil =>
    cases h
    exact ⟨rfl, fun x hx => absurd hx List.not_mem_nil⟩
  | cons x xs ih =>
    rw [List.mapM_cons] at h
    obtain ⟨y, hy, h⟩ := bind_eq_ok h
    obtain ⟨ys', hys', rfl⟩ := bind_pure_eq_ok h
    obtain ⟨rfl, hxs⟩ := ih hys'
    exact ⟨by rw [hg x y hy, List.map_cons], List.forall_mem_cons.2 ⟨⟨y, hy⟩, hxs⟩⟩

/-- A traversal fails as the first thing does on which it fails. -/
theorem mapM_eq_error_iff {f : β → Except ε α} {xs : List β} {e : ε} :
    xs.mapM f = .error e ↔ ∃ before x after, xs = before ++ x :: after ∧
      (∀ y ∈ before, ∃ a, f y = .ok a) ∧ f x = .error e := by
  induction xs with
  | nil =>
    constructor
    · rintro ⟨⟩
    · rintro ⟨before, x, after, hxs, -⟩
      exact absurd hxs.symm (List.append_ne_nil_of_right_ne_nil _ (List.cons_ne_nil x after))
  | cons x xs ih =>
    rw [List.mapM_cons]
    constructor
    · intro h
      rcases bind_eq_error h with hx | ⟨a, hx, h⟩
      · exact ⟨[], x, xs, rfl, fun y hy => absurd hy List.not_mem_nil, hx⟩
      · obtain ⟨before, z, after, rfl, hbefore, hz⟩ := ih.1 (bind_pure_eq_error h)
        exact ⟨x :: before, z, after, rfl, List.forall_mem_cons.2 ⟨⟨a, hx⟩, hbefore⟩, hz⟩
    · rintro ⟨_ | ⟨y, before⟩, z, after, hxs, hbefore, hz⟩
      · obtain ⟨rfl, rfl⟩ := List.cons.inj hxs
        rw [hz]
        rfl
      · obtain ⟨rfl, rfl⟩ := List.cons.inj hxs
        obtain ⟨⟨a, hx⟩, hbefore⟩ := List.forall_mem_cons.1 hbefore
        rw [hx, ih.2 ⟨before, z, after, rfl, hbefore, hz⟩]
        rfl

end

section

variable (f : ε → ε')

theorem mapError_bind (x : Except ε α) (g : α → Except ε β) :
    (x >>= g).mapError f = x.mapError f >>= fun a => (g a).mapError f := by
  cases x <;> rfl

theorem mapError_pure (a : α) : (pure a : Except ε α).mapError f = pure a := rfl

end

end Stave
