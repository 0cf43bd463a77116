import Mathlib.Data.List.Induction
import Mathlib.Order.Bounds.Basic
import Stave.Sink

/-!
# First begun, first ended

Notes of one pitch end in the order in which they begin: an end cancels the earliest beginning of its
pitch that is not cancelled yet, and one that finds no such beginning cancels nothing.  `Cancels` says
so of the places of the messages in their list, and the notes that sound are then the beginnings that
nothing cancels.

    of each pitch there sound as many as a count that stops at 0 arrives at    (count_sounding)
    the notes of a pitch that sound are those of its messages alone            (filter_sounding)
    a message adds the beginning that it is to those that remain, or takes
      away the first of its pitch, if there is one             (Remaining.noteOn, Remaining.noteOff)
    the notes that sound, in order, are the beginnings that remain             (sounding_matched)
-/

namespace Stave

/-! ## The count of a pitch -/

/-- The notes of a pitch that sound after one more message of it. -/
def Message.tally (count : Nat) : Message → Nat
  | noteOn _ _ _ => count + 1
  | noteOff _ _ => count - 1

namespace Message

variable (playing : List Pitch) (m : Message) (pitch : Pitch)

theorem count_hear : (hear playing m).count pitch =
    if m.pitch = pitch then tally (playing.count pitch) m else playing.count pitch := by
  cases m with
  | noteOn tick p velocity => by_cases h : p = pitch <;> simp [hear, Message.pitch, tally, h]
  | noteOff tick p =>
    by_cases h : p = pitch <;> simp [hear, Message.pitch, tally, List.count_erase, h]

theorem filter_hear : (hear playing m).filter (· = pitch) =
    if m.pitch = pitch then hear (playing.filter (· = pitch)) m else playing.filter (· = pitch) := by
  cases m with
  | noteOn tick p velocity => by_cases h : p = pitch <;> simp [hear, Message.pitch, h]
  | noteOff tick p =>
    by_cases h : p = pitch
    · simp [hear, Message.pitch, h, List.erase_filter]
    · -- the first of another pitch is not among those kept
      have hother : p ∉ playing.filter (· = pitch) := by simp [h]
      rw [Message.pitch, if_neg h, hear, ← List.erase_filter, List.erase_of_not_mem hother]

end Message

theorem count_sounding (ms : List Message) (pitch : Pitch) :
    (sounding ms).count pitch = (ms.filter (·.pitch = pitch)).foldl Message.tally 0 := by
  rw [List.foldl_filter]
  refine (List.foldl_hom (List.count pitch) fun s m => ?_).symm
  simp [Message.count_hear]

theorem filter_sounding (ms : List Message) (pitch : Pitch) :
    (sounding ms).filter (· = pitch) = sounding (ms.filter (·.pitch = pitch)) := by
  unfold sounding
  rw [List.foldl_filter]
  refine (List.foldl_hom (List.filter (· = pitch)) fun s m => ?_).symm
  simp [Message.filter_hear]

/-! ## Beginnings and ends at their places -/

def BeginsAt (ms : List Message) (pitch : Pitch) (i : Nat) : Prop :=
  ∃ tick velocity, ms[i]? = some (.noteOn tick pitch velocity)

def EndsAt (ms : List Message) (pitch : Pitch) (j : Nat) : Prop :=
  ∃ tick, ms[j]? = some (.noteOff tick pitch)

/-- The end at place `j` cancels the earliest beginning before it that has its pitch and that no end
before it cancels. -/
def Cancels (ms : List Message) (j i : Nat) : Prop :=
  ∃ pitch, EndsAt ms pitch j ∧
    IsLeast {i | i < j ∧ BeginsAt ms pitch i ∧ ∀ k, k < j → ¬ Cancels ms k i} i
termination_by j

/-- A note of the pitch begins at place `i`, and nothing cancels its beginning. -/
structure Remains (ms : List Message) (pitch : Pitch) (i : Nat) : Prop where
  begins : BeginsAt ms pitch i
  kept : ∀ j, ¬ Cancels ms j i

section

variable {ms : List Message} {m : Message} {rest : List Message} {pitch : Pitch} {i j : Nat}

theorem BeginsAt.lt (h : BeginsAt ms pitch i) : i < ms.length := by
  obtain ⟨tick, velocity, h⟩ := h
  exact (List.getElem?_eq_some_iff.1 h).1

theorem EndsAt.lt (h : EndsAt ms pitch j) : j < ms.length := by
  obtain ⟨tick, h⟩ := h
  exact (List.getElem?_eq_some_iff.1 h).1

theorem beginsAt_append (hi : i < ms.length) :
    BeginsAt (ms ++ rest) pitch i ↔ BeginsAt ms pitch i := by
  unfold BeginsAt
  rw [List.getElem?_append_left hi]

theorem endsAt_append (hj : j < ms.length) : EndsAt (ms ++ rest) pitch j ↔ EndsAt ms pitch j := by
  unfold EndsAt
  rw [List.getElem?_append_left hj]

/-- The beginnings that an end of the pitch at place `j` chooses from, as `Cancels` has them. -/
def uncancelled (ms : List Message) (pitch : Pitch) (j : Nat) : Set Nat :=
  {i | i < j ∧ BeginsAt ms pitch i ∧ ∀ k, k < j → ¬ Cancels ms k i}

theorem cancels_iff :
    Cancels ms j i ↔ ∃ pitch, EndsAt ms pitch j ∧ IsLeast (uncancelled ms pitch j) i := by
  rw [Cancels]
  rfl

theorem Cancels.lt (h : Cancels ms j i) : i < j ∧ j < ms.length := by
  obtain ⟨pitch, hend, hleast⟩ := cancels_iff.1 h
  exact ⟨hleast.1.1, hend.lt⟩

theorem uncancelled_append (hj : j ≤ ms.length)
    (h : ∀ k, k < j → ∀ i, Cancels (ms ++ rest) k i ↔ Cancels ms k i) :
    uncancelled (ms ++ rest) pitch j = uncancelled ms pitch j := by
  ext i
  refine and_congr_right fun hi => ?_
  rw [beginsAt_append (hi.trans_le hj)]
  refine and_congr_right fun _ => forall₂_congr fun k hk => ?_
  rw [h k hk i]

/-- What an end cancels is settled by the messages before it. -/
theorem cancels_append (hj : j < ms.length) : Cancels (ms ++ rest) j i ↔ Cancels ms j i := by
  induction j using Nat.strong_induction_on generalizing i with
  | _ j ih =>
    rw [cancels_iff, cancels_iff]
    refine exists_congr fun pitch => ?_
    rw [endsAt_append hj, uncancelled_append hj.le fun k hk i => ih k hk (hk.trans hj)]

theorem uncancelled_length : uncancelled ms pitch ms.length = {i | Remains ms pitch i} := by
  ext i
  constructor
  · rintro ⟨-, hbegins, hkept⟩
    exact ⟨hbegins, fun j hj => hkept j hj.lt.2 hj⟩
  · rintro ⟨hbegins, hkept⟩
    exact ⟨hbegins.lt, hbegins, fun j _ => hkept j⟩

theorem lt_length_concat : i < (ms ++ [m]).length ↔ i < ms.length ∨ i = ms.length := by
  rw [List.length_append, List.length_singleton, Nat.lt_succ_iff_lt_or_eq]

/-- One more message takes from what remains what it cancels, or adds the note that it begins. -/
theorem remains_concat : Remains (ms ++ [m]) pitch i ↔
    Remains ms pitch i ∧ ¬ Cancels (ms ++ [m]) ms.length i ∨
      i = ms.length ∧ ∃ tick velocity, m = .noteOn tick pitch velocity := by
  constructor
  · rintro ⟨hbegins, hkept⟩
    rcases lt_length_concat.1 hbegins.lt with hi | rfl
    · refine .inl ⟨⟨(beginsAt_append hi).1 hbegins, ?_⟩, hkept ms.length⟩
      intro j hj
      exact hkept j ((cancels_append hj.lt.2).2 hj)
    · obtain ⟨tick, velocity, hm⟩ := hbegins
      exact .inr ⟨rfl, tick, velocity, by simpa using hm⟩
  · rintro (⟨⟨hbegins, hkept⟩, hlast⟩ | ⟨rfl, tick, velocity, rfl⟩)
    · refine ⟨(beginsAt_append hbegins.lt).2 hbegins, ?_⟩
      intro j hj
      rcases lt_length_concat.1 hj.lt.2 with hbefore | rfl
      · exact hkept j ((cancels_append hbefore).1 hj)
      · exact hlast hj
    · -- what cancels it would have to come after it
      refine ⟨⟨tick, velocity, by simp⟩, ?_⟩
      intro j hj
      have hafter := hj.lt.1
      have hlt := lt_length_concat.1 hj.lt.2
      omega

theorem not_cancels_noteOn {tick : Nat} {velocity : UInt8} :
    ¬ Cancels (ms ++ [.noteOn tick pitch velocity]) ms.length i := by
  intro hcancels
  obtain ⟨p, ⟨t, hend⟩, -⟩ := cancels_iff.1 hcancels
  simp at hend

/-- An end that comes last cancels the first of the beginnings of its pitch that remain. -/
theorem cancels_last {tick : Nat} : Cancels (ms ++ [.noteOff tick pitch]) ms.length i ↔
    IsLeast {i | Remains ms pitch i} i := by
  have hchoice : ∀ p, uncancelled (ms ++ [.noteOff tick pitch]) p ms.length = {i | Remains ms p i} := by
    intro p
    rw [uncancelled_append le_rfl fun k hk i => cancels_append hk, uncancelled_length]
  rw [cancels_iff]
  constructor
  · rintro ⟨p, ⟨t, hend⟩, hleast⟩
    obtain ⟨-, rfl⟩ : tick = t ∧ pitch = p := by simpa using hend
    rwa [hchoice] at hleast
  · intro hleast
    refine ⟨pitch, ⟨tick, by simp⟩, ?_⟩
    rwa [hchoice]

end

/-! ## What sounds, at its places -/

/-- The beginnings that nothing cancels, in order, each with its pitch. -/
structure Remaining (ms : List Message) (begun : List (Nat × Pitch)) : Prop where
  ordered : begun.Pairwise (·.1 < ·.1)
  mem_iff : ∀ i pitch, (i, pitch) ∈ begun ↔ Remains ms pitch i

theorem remaining_nil : Remaining [] [] where
  ordered := .nil
  mem_iff := by
    intro i pitch
    constructor
    · intro h
      cases h
    · intro h
      have hlt := h.begins.lt
      cases hlt

section

variable {ms : List Message} {begun : List (Nat × Pitch)}

theorem Remaining.noteOn (h : Remaining ms begun) (tick : Nat) (pitch : Pitch) (velocity : UInt8) :
    Remaining (ms ++ [.noteOn tick pitch velocity]) (begun ++ [(ms.length, pitch)]) where
  ordered := by
    rw [List.pairwise_append]
    refine ⟨h.ordered, List.pairwise_singleton _ _, ?_⟩
    intro e he last hlast
    rw [List.mem_singleton.1 hlast]
    exact ((h.mem_iff e.1 e.2).1 he).begins.lt
  mem_iff := by
    intro i p
    rw [remains_concat, List.mem_append, h.mem_iff]
    simp [not_cancels_noteOn, eq_comm]

/-- Of a pitch, the first beginning that remains is the earliest. -/
theorem Remaining.isLeast {before after : List (Nat × Pitch)} {first : Nat} {pitch : Pitch}
    (h : Remaining ms (before ++ (first, pitch) :: after)) (hbefore : ∀ e ∈ before, e.2 ≠ pitch) :
    IsLeast {i | Remains ms pitch i} first := by
  constructor
  · exact (h.mem_iff first pitch).1 (by simp)
  · intro i hi
    have hordered := (List.pairwise_append.1 h.ordered).2.1
    have hmem := (h.mem_iff i pitch).2 hi
    rcases List.mem_append.1 hmem with hmem | hmem
    · exact absurd rfl (hbefore _ hmem)
    · rcases List.mem_cons.1 hmem with heq | hmem
      · exact (Prod.mk.inj heq).1.ge
      · exact (List.rel_of_pairwise_cons hordered hmem).le

theorem mem_append_of_ordered {before after : List (Nat × Pitch)} {first e : Nat × Pitch}
    (h : (before ++ first :: after).Pairwise (·.1 < ·.1)) :
    e ∈ before ++ after ↔ e ∈ before ++ first :: after ∧ e.1 ≠ first.1 := by
  obtain ⟨-, hafter, hbefore⟩ := List.pairwise_append.1 h
  constructor
  · intro he
    rcases List.mem_append.1 he with he | he
    · exact ⟨List.mem_append_left _ he, (hbefore e he first List.mem_cons_self).ne⟩
    · exact ⟨List.mem_append_right _ (List.mem_cons_of_mem first he),
        (List.rel_of_pairwise_cons hafter he).ne'⟩
  · rintro ⟨he, hne⟩
    rcases List.mem_append.1 he with he | he
    · exact List.mem_append_left after he
    · rcases List.mem_cons.1 he with rfl | he
      · exact absurd rfl hne
      · exact List.mem_append_right before he

theorem Remaining.noteOff (h : Remaining ms begun) (tick : Nat) (pitch : Pitch) :
    Remaining (ms ++ [.noteOff tick pitch]) (begun.eraseP (·.2 = pitch)) where
  ordered := h.ordered.sublist List.eraseP_sublist
  mem_iff := by
    intro i p
    rw [remains_concat, cancels_last]
    by_cases hsounds : ∃ e ∈ begun, e.2 = pitch
    · obtain ⟨e, he, hpitch⟩ := hsounds
      obtain ⟨⟨first, q⟩, before, after, hbefore, hq, rfl, herase⟩ :=
        List.exists_of_eraseP (p := fun e => decide (e.2 = pitch)) he (decide_eq_true hpitch)
      obtain rfl : q = pitch := of_decide_eq_true hq
      have hleast := h.isLeast fun e he hpitch => hbefore e he (decide_eq_true hpitch)
      have hcancelled : IsLeast {i | Remains ms q i} i ↔ i = first :=
        ⟨fun hi => hi.unique hleast, fun hi => hi ▸ hleast⟩
      rw [herase, mem_append_of_ordered h.ordered, h.mem_iff, hcancelled]
      simp
    · have herase : begun.eraseP (·.2 = pitch) = begun := by
        apply List.eraseP_of_forall_not
        intro e he hpitch
        exact hsounds ⟨e, he, of_decide_eq_true hpitch⟩
      have hnone : ¬ IsLeast {i | Remains ms pitch i} i := by
        intro hleast
        exact hsounds ⟨(i, pitch), (h.mem_iff i pitch).2 hleast.1, rfl⟩
      rw [herase, h.mem_iff]
      simp [hnone]

end

theorem sounding_concat (ms : List Message) (m : Message) :
    sounding (ms ++ [m]) = Message.hear (sounding ms) m := by
  unfold sounding
  rw [List.foldl_append]
  rfl

/-- The pitches that sound are those of the beginnings that remain, in their order. -/
theorem exists_remaining (ms : List Message) :
    ∃ begun, Remaining ms begun ∧ sounding ms = begun.map Prod.snd := by
  induction ms using List.reverseRecOn with
  | nil => exact ⟨[], remaining_nil, rfl⟩
  | append_singleton ms m ih =>
    obtain ⟨begun, hbegun, hsounding⟩ := ih
    rw [sounding_concat, hsounding]
    cases m with
    | noteOn tick pitch velocity =>
      refine ⟨_, hbegun.noteOn tick pitch velocity, ?_⟩
      rw [Message.hear, List.map_append]
      rfl
    | noteOff tick pitch =>
      refine ⟨_, hbegun.noteOff tick pitch, ?_⟩
      rw [Message.hear, List.erase_eq_eraseP', List.eraseP_map]
      rfl

/-- Ends silence the notes of their pitch in the order in which they began.  Of each pitch there
sound as many notes as its messages count, no end counting below 0, and these are the notes that
sound after its messages alone; and what sounds is, in the order of the messages, the beginnings that
remain when each end cancels the earliest beginning of its pitch that is not cancelled yet. -/
theorem sounding_matched (ms : List Message) :
    (∀ pitch, (sounding ms).count pitch =
      (ms.filter (·.pitch = pitch)).foldl Message.tally 0) ∧
    (∀ pitch, (sounding ms).filter (· = pitch) = sounding (ms.filter (·.pitch = pitch))) ∧
    ∃ begun : List (Nat × Pitch), sounding ms = begun.map Prod.snd ∧
      begun.Pairwise (·.1 < ·.1) ∧ ∀ i pitch, (i, pitch) ∈ begun ↔ Remains ms pitch i := by
  obtain ⟨begun, hbegun, hsounding⟩ := exists_remaining ms
  exact ⟨count_sounding ms, filter_sounding ms, begun, hsounding, hbegun.ordered, hbegun.mem_iff⟩

/-- An end too many is not made up for later, and of two notes of a pitch the first is silenced. -/
example : sounding [.noteOff 0 60, .noteOn 0 60 96, .noteOn 1 64 96, .noteOn 2 60 96, .noteOff 3 60] =
    [64, 60] := by decide

end Stave
