import Mathlib.Algebra.BigOperators.Ring.List
import Stave.Proofs.Score.Watch

/-!
# What a node plays lies within its time

Where no duration is negative, a stroke ends no later than the node that makes it, however deep it
is nested: the slots of a group are as long as what fills them, or longer, and together as long as
the group.

    elements ≠ [] → their slots add up to the time that is shared          (share_sum)
    n.beats on the beat of the share fit the slot of n                     (share_fits)
    n.Nonneg → no stroke of n.render start beat ends after start + time    (Node.Nonneg.within)
-/

namespace Stave.Score

/-! ## Slots -/

section

variable {elements : List Node} {total : ℚ}

theorem share_sum (hne : elements ≠ []) :
    (elements.map (share total elements).slot).sum = total := by
  unfold share
  split
  · have hlength : (elements.length : ℚ) ≠ 0 :=
      Nat.cast_ne_zero.2 (List.length_pos_of_ne_nil hne).ne'
    rw [List.map_const', List.sum_replicate, nsmul_eq_mul, mul_div_cancel₀ _ hlength]
  · next hsum =>
    rw [List.sum_map_mul_right, ← elementBeats_eq_map, mul_div_cancel₀ _ hsum]

theorem share_fits (ht : 0 ≤ total) (h : ∀ n ∈ elements, n.Nonneg) {n : Node} (hn : n ∈ elements) :
    n.beats * (share total elements).beat ≤ (share total elements).slot n := by
  unfold share
  split
  · next hsum =>
    -- where the lengths add up to nothing each of them is nothing
    rw [beats_eq_zero_of_sum (fun m hm => (h m hm).beats_nonneg) hsum n hn, zero_mul]
    exact div_nonneg ht (Nat.cast_nonneg _)
  · exact le_refl _

end

/-! ## Renderings -/

/-- No stroke ends after the time that begins at some moment. -/
def Rendering.Within (start : ℚ) (r : Rendering) : Prop :=
  ∀ x ∈ r.strokes, x.start + x.duration ≤ start + r.time

/-- On any start and beat, a node's strokes end within its time. -/
def Node.Within (n : Node) : Prop :=
  ∀ start beat : ℚ, 0 ≤ beat → (n.render start beat).Within start

section

variable {ns : List Node} (hns : ∀ n ∈ ns, n.Nonneg) (hwithin : ∀ n ∈ ns, n.Within)

include hns hwithin

theorem renderElements_within (cursor : ℚ) {beat : ℚ} (hb : 0 ≤ beat) :
    (renderElements cursor beat ns).Within cursor := by
  induction ns generalizing cursor with
  | nil => exact fun x hx => absurd hx List.not_mem_nil
  | cons n ns ih =>
    obtain ⟨hn, hns⟩ := List.forall_mem_cons.1 hns
    obtain ⟨hfirst, hothers⟩ := List.forall_mem_cons.1 hwithin
    have hrest := ih hns hothers (cursor + (n.render cursor beat).time)
    have hlater := (renderElements_forward (fun m hm => (hns m hm).forward)
      (cursor + (n.render cursor beat).time) hb).time
    intro x hx
    rw [renderElements] at hx ⊢
    rw [← add_assoc]
    rcases List.mem_append.1 hx with hx | hx
    · exact (hfirst cursor beat hb x hx).trans (le_add_of_nonneg_right hlater)
    · exact hrest x hx

theorem renderSlots_within {g : Share} (hg : g.Nonneg ns)
    (hfits : ∀ n ∈ ns, n.beats * g.beat ≤ g.slot n) (cursor : ℚ) :
    ∀ x ∈ renderSlots g cursor ns, x.start + x.duration ≤ cursor + (ns.map g.slot).sum := by
  induction ns generalizing cursor with
  | nil => exact fun x hx => absurd hx List.not_mem_nil
  | cons n ns ih =>
    obtain ⟨hn, hns⟩ := List.forall_mem_cons.1 hns
    obtain ⟨hfirst, hothers⟩ := List.forall_mem_cons.1 hwithin
    obtain ⟨hslot, hslots⟩ := List.forall_mem_cons.1 hg.slot
    obtain ⟨hfit, hfits⟩ := List.forall_mem_cons.1 hfits
    intro x hx
    rw [renderSlots] at hx
    rw [List.map_cons, List.sum_cons, ← add_assoc]
    rcases List.mem_append.1 hx with hx | hx
    · have hsum : 0 ≤ (ns.map g.slot).sum := by
        refine List.sum_nonneg fun q hq => ?_
        obtain ⟨m, hm, rfl⟩ := List.mem_map.1 hq
        exact hslots m hm
      calc x.start + x.duration
          ≤ cursor + (n.render cursor g.beat).time := hfirst cursor g.beat hg.beat x hx
        _ = cursor + n.beats * g.beat := by rw [hn.render_time hg.beat]
        _ ≤ cursor + g.slot n := add_le_add_right hfit cursor
        _ ≤ cursor + g.slot n + (ns.map g.slot).sum := le_add_of_nonneg_right hsum
    · exact ih hns hothers ⟨hg.beat, hslots⟩ hfits (cursor + g.slot n) x hx

end

theorem renderVoices_within {ss : List Sequence} (hss : ∀ s ∈ ss, ∀ n ∈ s.elements, n.Nonneg)
    (hwithin : ∀ s ∈ ss, ∀ n ∈ s.elements, n.Within) (start : ℚ) {beat : ℚ} (hb : 0 ≤ beat) :
    (renderVoices start beat ss).Within start := by
  induction ss with
  | nil => exact fun x hx => absurd hx List.not_mem_nil
  | cons s ss ih =>
    obtain ⟨elements, span⟩ := s
    obtain ⟨hs, hss⟩ := List.forall_mem_cons.1 hss
    obtain ⟨hfirst, hothers⟩ := List.forall_mem_cons.1 hwithin
    intro x hx
    rw [renderVoices] at hx ⊢
    rcases List.mem_append.1 hx with hx | hx
    · exact (renderElements_within hs hfirst start hb x hx).trans
        (add_le_add_right (le_max_left _ _) start)
    · exact (ih hss hothers x hx).trans (add_le_add_right (le_max_right _ _) start)

/-- Where no duration is negative, nothing is left sounding when a node is over. -/
theorem Node.Nonneg.within {n : Node} (h : n.Nonneg) : n.Within := by
  induction h with
  | note h =>
    intro start beat hb x hx
    rw [Node.render] at hx ⊢
    rw [List.mem_singleton.1 hx]
  | rest h =>
    intro start beat hb x hx
    rw [Node.render] at hx
    exact absurd hx List.not_mem_nil
  | @group elements factor span each h ih =>
    intro start beat hb x hx
    have ht := mul_nonneg (Ratio.toRat_nonneg.2 h) hb
    rw [Node.render] at hx ⊢
    rcases eq_or_ne elements [] with rfl | hne
    · exact absurd hx List.not_mem_nil
    · have hslots := renderSlots_within each ih (share_nonneg ht each)
        (fun n hn => share_fits ht each hn) start x hx
      rwa [share_sum hne] at hslots
  | parallel each h ih =>
    intro start beat hb
    rw [Node.render]
    exact renderVoices_within each ih start (mul_nonneg (Ratio.toRat_nonneg.2 h) hb)
  | sequence each ih =>
    intro start beat hb
    rw [Node.render, Sequence.render]
    exact renderElements_within each ih start hb

end Stave.Score
