import Stave.Proofs.Score.Cut

/-!
# Looking ahead

A lexer is asked to take the next item of its source or to look at it, in any order.  It keeps what
it has looked at, an item, a stray character or the end, in a cell of its own, so that the text it
holds may be one item ahead.  `Faces` says which items lie before the lexer, whatever its cell holds:
taking one takes the first of them away, and a look takes nothing.

    scan finds the first item of a text, and stops before the others              (scan_spec)
    l faces is → l.next? answers the first of is, and then faces the others       (Faces.next)
    l faces is → l.peek? is the first of is, and after a look l still faces is    (Faces.look)
    what is taken among looks is what is taken without any, item by item;
      a look finds what is taken next, however many looks there are between       (peeking_invisible)
-/

namespace Stave.Score.Lexer

open Stave.Text

/-! ## Calls -/

/-- What a lexer is asked. -/
inductive Call where
  | next
  | peek
deriving DecidableEq

def call (l : Lexer) : Call → Option Item × Lexer
  | .next => l.next?
  | .peek => l.look

/-- Some calls in turn, each with its answer. -/
def transcript (l : Lexer) : List Call → List (Call × Option Item)
  | [] => []
  | c :: calls => (c, (l.call c).1) :: (l.call c).2.transcript calls

/-- The answers to the calls that take an item. -/
def taken (told : List (Call × Option Item)) : List (Option Item) :=
  (told.filter (·.1 = .next)).map Prod.snd

section

variable (item : Option Item) (told : List (Call × Option Item))

@[simp] theorem taken_next : taken ((.next, item) :: told) = item :: taken told := by simp [taken]

@[simp] theorem taken_peek : taken ((.peek, item) :: told) = taken told := by simp [taken]

end

/-! ## What lies before a lexer -/

/-- These items are to be taken; the first of them, or the end, may be in the cell. -/
def Faces (l : Lexer) (ahead : List Item) : Prop :=
  match l.peeked with
  | none => itemsFrom l.offset l.rest = ahead
  | some item => item = ahead.head? ∧ itemsFrom l.offset l.rest = ahead.tail

theorem ofSource_faces (source : List Char) : (ofSource source).Faces (items source) := rfl

theorem scan_spec (offset : Nat) (cs : List Char) :
    (scan offset cs).1 = (itemsFrom offset cs).head? ∧ (scan offset cs).2.peeked = none ∧
      (scan offset cs).2.Faces (itemsFrom offset cs).tail := by
  fun_induction scan offset cs with
  | case1 offset => simp [itemsFrom, segments, Faces]
  | case2 offset c tail kind n hsegment text stop hblank ih =>
    -- a blank or a comment: the items are those of what follows it
    have hitems : itemsFrom offset (c :: tail) = itemsFrom stop (tail.drop n) := by
      unfold itemsFrom
      rw [segments]
      simp [hsegment, hblank, text, stop]
    rw [hitems]
    exact ih
  | case3 offset c tail kind n hsegment text stop item hitem =>
    have hitems : itemsFrom offset (c :: tail) = item :: itemsFrom stop (tail.drop n) := by
      unfold itemsFrom
      rw [segments]
      simp [hsegment, hitem, text, stop]
    rw [hitems]
    exact ⟨rfl, rfl, rfl⟩

section

variable {l : Lexer} {ahead : List Item}

theorem Faces.items_eq (h : l.Faces ahead) (hunseen : l.peeked = none) :
    itemsFrom l.offset l.rest = ahead := by
  unfold Faces at h
  rwa [hunseen] at h

theorem Faces.next (h : l.Faces ahead) :
    l.next?.1 = ahead.head? ∧ l.next?.2.Faces ahead.tail := by
  obtain ⟨offset, rest, peeked⟩ := l
  cases peeked with
  | none =>
    obtain ⟨hitem, -, htail⟩ := scan_spec offset rest
    rw [h.items_eq rfl] at hitem htail
    exact ⟨hitem, htail⟩
  | some item => exact h

theorem Faces.look (h : l.Faces ahead) : l.peek? = ahead.head? ∧ l.look.2.Faces ahead := by
  obtain ⟨offset, rest, peeked⟩ := l
  cases peeked with
  | none =>
    -- the text has moved on by the item, which the cell gives back
    obtain ⟨hitem, hunseen, htail⟩ := scan_spec offset rest
    rw [h.items_eq rfl] at hitem htail
    exact ⟨hitem, hitem, htail.items_eq hunseen⟩
  | some item => exact ⟨h.1, h⟩

/-! ## Many calls -/

/-- Where the calls so far have led does not depend on the looks among them. -/
theorem Faces.transcript_append (h : l.Faces ahead) (calls more : List Call) :
    ∃ m : Lexer, m.Faces (ahead.drop (calls.count .next)) ∧
      l.transcript (calls ++ more) = l.transcript calls ++ m.transcript more := by
  induction calls generalizing l ahead with
  | nil => exact ⟨l, h, rfl⟩
  | cons c calls ih =>
    cases c with
    | next =>
      obtain ⟨m, hm, htold⟩ := ih h.next.2
      refine ⟨m, ?_, ?_⟩
      · simpa using hm
      · simp [transcript, call, htold]
    | peek =>
      obtain ⟨m, hm, htold⟩ := ih h.look.2
      refine ⟨m, ?_, ?_⟩
      · simpa using hm
      · simp [transcript, call, htold]

theorem Faces.transcript_looks (h : l.Faces ahead) (k : Nat) :
    l.transcript (List.replicate k .peek) = List.replicate k (.peek, ahead.head?) := by
  induction k generalizing l with
  | zero => rfl
  | succ k ih => simp [List.replicate_succ, transcript, call, h.look.1, ih h.look.2]

/-- The calls that take an item take them in order, and the end when there are no more. -/
theorem Faces.taken_eq (h : l.Faces ahead) (calls : List Call) :
    taken (l.transcript calls) = (List.range (calls.count .next)).map (ahead[·]?) := by
  induction calls generalizing l ahead with
  | nil => rfl
  | cons c calls ih =>
    cases c with
    | next =>
      simp [transcript, call, h.next.1, ih h.next.2, List.range_succ_eq_map, List.head?_eq_getElem?]
    | peek => simp [transcript, call, ih h.look.2]

end

/-- Looking ahead is not noticed: whatever calls are made, those that take an item answer as they do
where no other calls are made, each with the next item of the source and, past the last, with the
end.  Looks, however many, answer what the call that takes an item after them answers. -/
theorem peeking_invisible (source : List Char) :
    (∀ calls : List Call, taken (transcript (ofSource source) calls) =
      taken (transcript (ofSource source) (List.replicate (calls.count .next) .next))) ∧
    (∀ n, taken (transcript (ofSource source) (List.replicate n .next)) =
      (List.range n).map ((items source)[·]?)) ∧
    ∀ (before : List Call) (looks : Nat) (after : List Call), ∃ item told,
      transcript (ofSource source) (before ++ (List.replicate looks .peek ++ .next :: after)) =
        transcript (ofSource source) before ++
          (List.replicate looks (.peek, item) ++ (.next, item) :: told) := by
  have hfaces := ofSource_faces source
  refine ⟨?_, ?_, ?_⟩
  · intro calls
    rw [hfaces.taken_eq, hfaces.taken_eq, List.count_replicate_self]
  · intro n
    rw [hfaces.taken_eq, List.count_replicate_self]
  · intro before looks after
    obtain ⟨l, hl, hbefore⟩ :=
      hfaces.transcript_append before (List.replicate looks .peek ++ .next :: after)
    obtain ⟨m, hm, hlooks⟩ := hl.transcript_append (List.replicate looks .peek) (.next :: after)
    rw [List.count_replicate, if_neg (by decide), List.drop_zero] at hm
    refine ⟨m.next?.1, m.next?.2.transcript after, ?_⟩
    rw [hbefore, hlooks, hl.transcript_looks, transcript, call, hm.next.1]

/-- A stray character that has been looked at and taken does not stop the lexer. -/
example : (ofSource ['$', '~']).look.2.next?.2.peek? = some (.ok ⟨.rest, ⟨1, 2⟩, ['~']⟩) := by cbv

end Stave.Score.Lexer
