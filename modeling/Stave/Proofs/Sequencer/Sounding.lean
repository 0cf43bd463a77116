import Mathlib.Data.List.Induction
import Stave.Proofs.Sequencer.Delivery

/-!
# Every note is released

Two messages are sent for each event, and its end never comes before its beginning: not on an
earlier tick, and on the same tick not earlier in the queue.  So at no moment have more notes of a
pitch ended than begun, and when all is played none still sounds.

    Released (r.playback now events)                                      (released_playback)
    Released ms → sounding ms = []                                        (Released.silent)
-/

namespace Stave

namespace Message

/-- Whether a message begins a note of some pitch. -/
def begins (pitch : Pitch) : Message → Bool
  | noteOn _ p _ => p = pitch
  | noteOff _ _ => false

/-- Whether a message ends one. -/
def ends (pitch : Pitch) : Message → Bool
  | noteOn _ _ _ => false
  | noteOff _ p => p = pitch

section

variable (pitch p : Pitch) (tick : Nat) (velocity : UInt8) (ms : List Message)

@[simp] theorem countP_begins_noteOn : (noteOn tick p velocity :: ms).countP (begins pitch) =
    ms.countP (begins pitch) + if p = pitch then 1 else 0 := by
  simp [List.countP_cons, begins]

@[simp] theorem countP_begins_noteOff :
    (noteOff tick p :: ms).countP (begins pitch) = ms.countP (begins pitch) := by
  simp [begins]

@[simp] theorem countP_ends_noteOn :
    (noteOn tick p velocity :: ms).countP (ends pitch) = ms.countP (ends pitch) := by
  simp [ends]

@[simp] theorem countP_ends_noteOff : (noteOff tick p :: ms).countP (ends pitch) =
    ms.countP (ends pitch) + if p = pitch then 1 else 0 := by
  simp [List.countP_cons, ends]

end

end Message

/-- No note ends before it begins, as far as its pitch tells. -/
def InTurn (messages : List Message) : Prop :=
  ∀ heard, heard <+: messages → ∀ pitch,
    heard.countP (Message.ends pitch) ≤ heard.countP (Message.begins pitch)

/-- And each note that begins ends. -/
structure Released (messages : List Message) : Prop where
  inTurn : InTurn messages
  all : ∀ pitch, messages.countP (Message.ends pitch) = messages.countP (Message.begins pitch)

/-! ## What still sounds -/

theorem InTurn.init {ms : List Message} {m : Message} (h : InTurn (ms ++ [m])) : InTurn ms :=
  fun heard hh => h heard (hh.trans (List.prefix_append ms [m]))

/-- Of each pitch there sound as many notes as have begun and not ended. -/
theorem InTurn.count_sounding {ms : List Message} (h : InTurn ms) (pitch : Pitch) :
    (sounding ms).count pitch + ms.countP (Message.ends pitch) =
      ms.countP (Message.begins pitch) := by
  induction ms using List.reverseRecOn with
  | nil => rfl
  | append_singleton ms m ih =>
    have hall := h _ List.prefix_rfl pitch
    have hms := ih h.init
    rw [sounding, List.foldl_concat, ← sounding]
    rw [List.countP_append, List.countP_append] at hall ⊢
    cases m with
    | noteOn tick p velocity =>
      simp only [Message.hear, List.count_append, List.count_singleton, Message.countP_begins_noteOn,
        Message.countP_ends_noteOn, List.countP_nil, beq_iff_eq] at hall ⊢
      omega
    | noteOff tick p =>
      -- the end of a pitch that sounds takes one of it away
      simp only [Message.hear, List.count_erase, Message.countP_begins_noteOff,
        Message.countP_ends_noteOff, List.countP_nil, beq_iff_eq] at hall ⊢
      omega

theorem Released.silent {ms : List Message} (h : Released ms) : sounding ms = [] := by
  rw [List.eq_nil_iff_forall_not_mem]
  intro pitch hp
  have hpos := List.count_pos_iff.2 hp
  have hcount := h.inTurn.count_sounding pitch
  have hall := h.all pitch
  omega

/-! ## One more note -/

theorem prefix_append_cons {α : Type} {front x y : List α} {m : α} (h : front <+: x ++ m :: y) :
    front <+: x ∨ ∃ t, t <+: y ∧ front = x ++ m :: t := by
  obtain ⟨rest, hsplit⟩ := h
  rcases List.append_eq_append_iff.1 hsplit with ⟨more, rfl, -⟩ | ⟨past, rfl, hpast⟩
  · exact .inl (List.prefix_append front more)
  · rcases List.cons_eq_append_iff.1 hpast with ⟨rfl, -⟩ | ⟨t, rfl, rfl⟩
    · rw [List.append_nil]
      exact .inl List.prefix_rfl
    · exact .inr ⟨t, List.prefix_append t rest, rfl⟩

/-- A note may be put among others anywhere, its beginning before its end. -/
theorem Released.insert {a b c : List Message} (h : Released (a ++ (b ++ c))) (on off : Nat)
    (pitch : Pitch) (velocity : UInt8) :
    Released (a ++ .noteOn on pitch velocity :: (b ++ .noteOff off pitch :: c)) := by
  constructor
  · intro heard hheard p
    -- what has been heard stops before the beginning, before the end, or after it
    rcases prefix_append_cons hheard with ha | ⟨late, hlate, rfl⟩
    · exact h.inTurn heard (ha.trans (List.prefix_append a _)) p
    · rcases prefix_append_cons hlate with hb | ⟨last, hlast, rfl⟩
      · have hold := h.inTurn (a ++ late)
          ((List.prefix_append_right_inj a).2 (hb.trans (List.prefix_append b c))) p
        simp only [List.countP_append, Message.countP_begins_noteOn,
          Message.countP_ends_noteOn] at hold ⊢
        omega
      · have hold := h.inTurn (a ++ (b ++ last)) ((List.prefix_append_right_inj a).2
          ((List.prefix_append_right_inj b).2 hlast)) p
        simp only [List.countP_append, Message.countP_begins_noteOn, Message.countP_ends_noteOn,
          Message.countP_begins_noteOff, Message.countP_ends_noteOff] at hold ⊢
        omega
  · intro p
    have hall := h.all p
    simp only [List.countP_append, Message.countP_begins_noteOn, Message.countP_ends_noteOn,
      Message.countP_begins_noteOff, Message.countP_ends_noteOff] at hall ⊢
    omega

/-! ## Playback -/

section

variable (r : Resolution) (now : Nat)

theorem Resolution.onTick_le_offTick (e : Event) : r.onTick e ≤ r.offTick e :=
  Int.toNat_le_toNat (le_max_right _ _)

theorem Resolution.pairwise_playback (events : List Event) :
    (r.playback now events).Pairwise (·.tick ≤ ·.tick) := by
  have hsorted := List.pairwise_mergeSort (decide_key_trans Message.tick)
    (decide_key_total Message.tick) (events.flatMap fun e =>
      [.noteOn (now + r.onTick e) e.pitch e.velocity, .noteOff (now + r.offTick e) e.pitch])
  exact hsorted.imp of_decide_eq_true

theorem Resolution.length_playback (events : List Event) :
    (r.playback now events).length = 2 * events.length := by
  rw [playback, List.length_mergeSort, List.length_flatMap]
  simp [Nat.mul_comm]

/-- One more event puts its beginning and, at that or a later place, its end among the others. -/
theorem Resolution.playback_cons (e : Event) (events : List Event) :
    ∃ a b c, r.playback now events = a ++ (b ++ c) ∧
      r.playback now (e :: events) = a ++ .noteOn (now + r.onTick e) e.pitch e.velocity ::
        (b ++ .noteOff (now + r.offTick e) e.pitch :: c) := by
  unfold playback
  rw [List.flatMap_cons]
  generalize events.flatMap _ = rest
  have hle := r.onTick_le_offTick e
  obtain ⟨x, c, hoff, hrest, -⟩ := List.mergeSort_cons (decide_key_trans Message.tick)
    (decide_key_total Message.tick) (.noteOff (now + r.offTick e) e.pitch) rest
  obtain ⟨a, y, hon, hoff', hafter⟩ := List.mergeSort_cons (decide_key_trans Message.tick)
    (decide_key_total Message.tick) (.noteOn (now + r.onTick e) e.pitch e.velocity)
    (.noteOff (now + r.offTick e) e.pitch :: rest)
  have hend : Message.noteOff (now + r.offTick e) e.pitch ∉ a := by
    intro hmem
    have := hafter _ hmem
    simp [Message.tick] at this
    omega
  rw [hoff] at hoff'
  rcases List.append_eq_append_iff.1 hoff' with ⟨between, rfl, hbetween⟩ | ⟨b, rfl, rfl⟩
  · rcases List.cons_eq_append_iff.1 hbetween with ⟨rfl, rfl⟩ | ⟨z, rfl, -⟩
    · refine ⟨x, [], c, by rw [hrest]; rfl, ?_⟩
      rw [List.append_nil] at hon
      exact hon
    · exact absurd (List.mem_append_right x List.mem_cons_self) hend
  · refine ⟨a, b, c, ?_, hon⟩
    rw [hrest, List.append_assoc]

theorem Resolution.released_playback (events : List Event) : Released (r.playback now events) := by
  induction events with
  | nil =>
    rw [playback, List.flatMap_nil, List.mergeSort_nil]
    refine ⟨?_, fun _ => rfl⟩
    intro heard hheard p
    rw [List.prefix_nil.1 hheard]
    exact le_refl _
  | cons e events ih =>
    obtain ⟨a, b, c, hrest, hall⟩ := r.playback_cons now e events
    rw [hrest] at ih
    rw [hall]
    exact ih.insert _ _ _ _

end

end Stave
