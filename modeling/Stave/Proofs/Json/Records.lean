import Stave.Proofs.Json.Values

/-!
# Records read back from JSON

What a record is read from is the object of its fields, each name once; what an array is read from
is its items, one by one.

    record? (fields.map Prod.fst) partly (.object fields) = some (fields.map fun f => some f.2)
                                                                           (record?_object)
    (∀ a ∈ as, item? (write a) = some a) → list? item? (.array (as.map write)) = some as
                                                                           (list?_map)
-/

namespace Stave.Json

/-! ## Parts of a record -/

section

variable {w : Width} {α : Type}

theorem integer?_integer {n : Int} (h : w.Holds n) : (Json.integer n).integer? w = some n :=
  Width.narrow?_of_holds h

theorem natural?_natural {n : Nat} (h : w.Holds n) : (Json.natural n).natural? w = some n := by
  rw [natural, natural?, integer?_integer h]
  rfl

theorem optional?_ofOption {a : Option Int} (h : ∀ n ∈ a, w.Holds n) :
    optional? (integer? w) (some (ofOption .integer a)) = some a := by
  cases a with
  | none => rfl
  | some n =>
    show ((Json.integer n).integer? w).map some = _
    rw [integer?_integer (h n rfl)]
    rfl

theorem mapM_eq_some_map {β γ : Type} {f : β → Option γ} {g : β → γ} {bs : List β}
    (h : ∀ b ∈ bs, f b = some (g b)) : bs.mapM f = some (bs.map g) := by
  induction bs with
  | nil => rfl
  | cons b bs ih =>
    obtain ⟨hb, hbs⟩ := List.forall_mem_cons.1 h
    rw [List.mapM_cons, hb, ih hbs]
    rfl

theorem list?_map {write : α → Json} {item? : Json → Option α} {as : List α}
    (h : ∀ a ∈ as, item? (write a) = some a) : list? item? (.array (as.map write)) = some as := by
  rw [list?, List.mapM_map]
  exact (mapM_eq_some_map h).trans (congrArg some (List.map_id as))

theorem valuesOf_cons (name : String) (f : String × Json) (fields : List (String × Json)) :
    valuesOf name (f :: fields) =
      if f.1 = name then f.2 :: valuesOf name fields else valuesOf name fields := by
  by_cases h : f.1 = name <;> simp [valuesOf, h]

theorem valuesOf_eq_nil {name : String} {fields : List (String × Json)}
    (h : name ∉ fields.map Prod.fst) : valuesOf name fields = [] := by
  induction fields with
  | nil => rfl
  | cons f fields ih =>
    rw [List.map_cons, List.mem_cons, not_or] at h
    obtain ⟨hf, hfields⟩ := h
    rw [valuesOf_cons, if_neg (Ne.symm hf), ih hfields]

theorem valuesOf_of_mem {fields : List (String × Json)} (hn : (fields.map Prod.fst).Nodup)
    {f : String × Json} (hf : f ∈ fields) : valuesOf f.1 fields = [f.2] := by
  induction fields with
  | nil => cases hf
  | cons g fields ih =>
    obtain ⟨hg, hn⟩ := List.nodup_cons.1 hn
    rw [valuesOf_cons]
    rcases List.mem_cons.1 hf with rfl | hf
    · rw [if_pos rfl, valuesOf_eq_nil hg]
    · have hne : g.1 ≠ f.1 := fun heq => hg (heq ▸ List.mem_map_of_mem hf)
      rw [if_neg hne, ih hn hf]

/-- A record is read field by field from the object of its fields. -/
theorem record?_object (fields : List (String × Json)) (hn : (fields.map Prod.fst).Nodup) (partly : Bool) :
    record? (fields.map Prod.fst) partly (.object fields) = some (fields.map fun f => some f.2) := by
  show (fields.map Prod.fst).mapM (fun name => field? name fields) = _
  rw [List.mapM_map]
  refine mapM_eq_some_map fun f hf => ?_
  show field? f.1 fields = _
  rw [field?, valuesOf_of_mem hn hf]

end

end Stave.Json
