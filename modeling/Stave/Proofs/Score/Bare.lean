import Stave.Proofs.Except
import Stave.Score.Decode
import Stave.Score.Printer

/-!
# Scores up to spans

Forgetting where a score stands in its source changes neither its text, nor its lengths, nor its
events; a fault only loses the place it blames.

    n.bare.text = n.text                                                  (Node.text_bare)
    n.bare.length? = n.length?                                            (Node.length?_bare)
    decode c start s.bare = (decode c start s).mapError DecodeFault.bare  (decode_bare)
-/

namespace Stave.Score

mutual

/-- The node with every span forgotten. -/
def Node.bare : Node → Node
  | .sequence s => .sequence s.bare
  | .group elements factor _ => .group (bareElements elements) factor default
  | .parallel voices factor _ => .parallel (bareVoices voices) factor default
  | .note n => .note { n with span := default }
  | .rest r => .rest { r with span := default }

def Sequence.bare : Sequence → Sequence
  | ⟨elements, _⟩ => ⟨bareElements elements, default⟩

def bareElements : List Node → List Node
  | [] => []
  | n :: ns => n.bare :: bareElements ns

def bareVoices : List Sequence → List Sequence
  | [] => []
  | s :: ss => s.bare :: bareVoices ss

end

/-- The fault without the place it blames. -/
def DecodeFault.bare : DecodeFault → DecodeFault
  | .time _ => .time default
  | .pitch name _ => .pitch name default

/-! ## Lists of nodes -/

theorem bareElements_eq_map (ns : List Node) : bareElements ns = ns.map Node.bare := by
  induction ns with
  | nil => rfl
  | cons n ns ih => rw [bareElements, ih, List.map_cons]

theorem bareVoices_eq_map (ss : List Sequence) : bareVoices ss = ss.map Sequence.bare := by
  induction ss with
  | nil => rfl
  | cons s ss ih => rw [bareVoices, ih, List.map_cons]

/-! ## Text -/

mutual

@[simp] theorem Node.text_bare : ∀ n : Node, n.bare.text = n.text
  | .sequence s => by simp only [Node.bare, Node.text, Sequence.text_bare s]
  | .group elements factor _ => by simp only [Node.bare, Node.text, elementTexts_bare elements]
  | .parallel voices factor _ => by simp only [Node.bare, Node.text, voiceTexts_bare voices]
  | .note n => rfl
  | .rest r => rfl

@[simp] theorem Sequence.text_bare : ∀ s : Sequence, s.bare.text = s.text
  | ⟨elements, _⟩ => by simp only [Sequence.bare, Sequence.text, elementTexts_bare elements]

theorem elementTexts_bare : ∀ ns : List Node, elementTexts (bareElements ns) = elementTexts ns
  | [] => rfl
  | n :: ns => by simp only [bareElements, elementTexts, Node.text_bare n, elementTexts_bare ns]

theorem voiceTexts_bare : ∀ ss : List Sequence, voiceTexts (bareVoices ss) = voiceTexts ss
  | [] => rfl
  | s :: ss => by simp only [bareVoices, voiceTexts, Sequence.text_bare s, voiceTexts_bare ss]

end

/-! ## Lengths -/

mutual

@[simp] theorem Node.length?_bare : ∀ n : Node, n.bare.length? = n.length?
  | .sequence s => by simp only [Node.bare, Node.length?, Sequence.length?_bare s]
  | .group elements factor _ => rfl
  | .parallel voices factor _ => by simp only [Node.bare, Node.length?, voiceLengths?_bare voices]
  | .note n => rfl
  | .rest r => rfl

@[simp] theorem Sequence.length?_bare : ∀ s : Sequence, s.bare.length? = s.length?
  | ⟨elements, _⟩ => by simp only [Sequence.bare, Sequence.length?, lengths?_bare elements]

theorem lengths?_bare : ∀ ns : List Node, lengths? (bareElements ns) = lengths? ns
  | [] => rfl
  | n :: ns => by simp only [bareElements, lengths?, Node.length?_bare n, lengths?_bare ns]

theorem voiceLengths?_bare : ∀ ss : List Sequence, voiceLengths? (bareVoices ss) = voiceLengths? ss
  | [] => rfl
  | s :: ss => by simp only [bareVoices, voiceLengths?, Sequence.length?_bare s, voiceLengths?_bare ss]

end

theorem weight?_bare (ns : List Node) : weight? (bareElements ns) = weight? ns := by
  rw [weight?, lengths?_bare, weight?]

/-! ## Events -/

theorem mapError_inTime (span : Span) (t : Option Ratio) :
    (inTime span t).mapError DecodeFault.bare = inTime default t := by
  cases t <;> rfl

theorem mapError_eventOf (c : Setting) (n : Note) (start duration : Ratio) :
    (eventOf c n start duration).mapError DecodeFault.bare =
      eventOf c { n with span := default } start duration := by
  have hp : pitchOf? c { n with span := default } = pitchOf? c n := rfl
  rw [eventOf, eventOf, hp]
  cases pitchOf? c n <;> rfl

theorem Node.span_bare (n : Node) : n.bare.span = default := by
  rcases n with ⟨elements, span⟩ | _ | _ | _ | _ <;> rfl

theorem mapError_slot (d : Division) (n : Node) :
    (d.slot n).mapError DecodeFault.bare = d.slot n.bare := by
  unfold Division.slot
  split
  · rfl
  · simp only [mapError_bind, mapError_inTime, Node.length?_bare, Node.span_bare]

mutual

theorem playNode_bare (c : Setting) (start beat : Ratio) :
    ∀ n : Node, playNode c start beat n.bare = (playNode c start beat n).mapError DecodeFault.bare
  | .sequence s => by
    simp only [Node.bare, playNode, playSequence_bare c start beat s]
  | .group elements factor span => by
    simp only [Node.bare, playNode, mapError_bind, mapError_inTime, weight?_bare]
    cases elements with
    | nil => rfl
    | cons n ns =>
      have hlen : (bareElements (n :: ns)).length = (n :: ns).length := by
        rw [bareElements_eq_map, List.length_map]
      simp only [bareElements] at hlen ⊢
      simp only [hlen]
      congr 1
      funext total
      congr 1
      funext weight
      cases divide? total weight (n :: ns).length with
      | none => rfl
      | some division =>
        simp only [mapError_bind, mapError_pure, ← playSlots_bare c division start (n :: ns), bareElements]
  | .parallel voices factor span => by
    simp only [Node.bare, playNode, mapError_bind, mapError_inTime]
    simp only [playVoices_bare c start _ 0 voices]
  | .note n => by
    simp only [Node.bare, playNode, mapError_bind, mapError_inTime, mapError_eventOf, mapError_pure]
  | .rest r => by
    simp only [Node.bare, playNode, mapError_bind, mapError_inTime, mapError_pure]

theorem playSequence_bare (c : Setting) (start beat : Ratio) : ∀ s : Sequence,
    playSequence c start beat s.bare = (playSequence c start beat s).mapError DecodeFault.bare
  | ⟨elements, span⟩ => by
    simp only [Sequence.bare, playSequence, mapError_bind, mapError_inTime, mapError_pure,
      playElements_bare c start beat elements]

theorem playElements_bare (c : Setting) (cursor beat : Ratio) : ∀ ns : List Node,
    playElements c cursor beat (bareElements ns) =
      (playElements c cursor beat ns).mapError DecodeFault.bare
  | [] => rfl
  | n :: ns => by
    simp only [bareElements, playElements, mapError_bind, mapError_inTime, mapError_pure,
      playNode_bare c cursor beat n, Node.span_bare]
    simp only [playElements_bare c _ beat ns]

theorem playSlots_bare (c : Setting) (d : Division) (cursor : Ratio) : ∀ ns : List Node,
    playSlots c d cursor (bareElements ns) = (playSlots c d cursor ns).mapError DecodeFault.bare
  | [] => rfl
  | n :: ns => by
    simp only [bareElements, playSlots, mapError_bind, mapError_inTime, mapError_pure, mapError_slot,
      playNode_bare c cursor d.beat n, Node.span_bare]
    simp only [playSlots_bare c d _ ns]

theorem playVoices_bare (c : Setting) (start beat longest : Ratio) : ∀ ss : List Sequence,
    playVoices c start beat longest (bareVoices ss) =
      (playVoices c start beat longest ss).mapError DecodeFault.bare
  | [] => rfl
  | s :: ss => by
    simp only [bareVoices, playVoices, mapError_bind, mapError_pure,
      playSequence_bare c start beat s]
    simp only [playVoices_bare c start beat _ ss]

end

theorem decode_bare (c : Setting) (start : Ratio) (s : Sequence) :
    decode c start s.bare = (decode c start s).mapError DecodeFault.bare := by
  simp only [decode, mapError_bind, mapError_pure, playSequence_bare]

end Stave.Score
