import Stave.Json.Reader
import Stave.Proofs.Json.Tokens

/-!
# Printed JSON is read back

A text spells a value if it moves the reader from wherever a value is due to where it has been
delivered.  Blanks before a text do not matter, and the parts of a bracket are read one by one, so
both printed forms of a value spell it.

    Moves a r r' → Moves b r' r'' → Parted b → Moves (a ++ b) r r''        (Moves.append)
    the texts of some parts, with commas between them, move the reader
    from the start of their bracket to behind the last of them             (Part.moves)
    j.Plain → read? j.compact = some j ∧ read? j.pretty = some j           (Plain.read?_compact, Plain.read?_pretty)
-/

namespace Stave.Json

/-- The tokens of the text take the reader from one state to another. -/
def Moves (text : List Char) (r r' : Reading) : Prop :=
  ∃ ts, Lexes text ts ∧ ts.foldlM Reading.step r = some r'

/-- The text is read as the value wherever a value is due. -/
def Spells (text : List Char) (j : Json) : Prop := ∀ outer, Moves text (.value outer) (deliver j outer)

/-- A value that is printed as itself: no numeral but whole numbers, and nothing unreadable. -/
inductive Plain : Json → Prop
  | null : Plain .null
  | bool (b : Bool) : Plain (.bool b)
  | integer (n : Int) : Plain (.integer n)
  | string (s : String) : Plain (.string s)
  | array {items : List Json} (each : ∀ j ∈ items, j.Plain) : Plain (.array items)
  | object {fields : List (String × Json)} (each : ∀ f ∈ fields, f.2.Plain) : Plain (.object fields)

/-! ## Moves of the reader -/

section

variable {a b text margin : List Char} {c : Char} {r r' r'' : Reading} {t : Token}
  {outer : List Frame} {j : Json}

namespace Moves

theorem refl (r : Reading) : Moves [] r r := ⟨[], .nil, rfl⟩

theorem append (ha : Moves a r r') (hb : Moves b r' r'') (h : Parted b) : Moves (a ++ b) r r'' := by
  obtain ⟨ts, hts, hrun⟩ := ha
  obtain ⟨us, hus, hrun'⟩ := hb
  refine ⟨ts ++ us, hts.append hus h, ?_⟩
  rw [List.foldlM_append, hrun]
  exact hrun'

theorem blanks (hm : ∀ c ∈ margin, isBlank c = true) (ha : Moves a r r') : Moves (margin ++ a) r r' := by
  obtain ⟨ts, hts, hrun⟩ := ha
  refine ⟨ts, ?_, hrun⟩
  induction margin with
  | nil => exact hts
  | cons c margin ih => exact (ih (List.forall_mem_cons.1 hm).2).blank (hm c List.mem_cons_self)

/-- A bracket or a separator in front. -/
theorem symbol (hblank : isBlank c = false) (h : ∀ tail, tokenAt? c tail = some (t, 0))
    (hstep : r.step t = some r') (ha : Moves a r' r'') : Moves (c :: a) r r'' := by
  obtain ⟨ts, hts, hrun⟩ := ha
  refine ⟨t :: ts, hts.symbol hblank h, ?_⟩
  rw [List.foldlM_cons, hstep]
  exact hrun

theorem scalar (h : Lexes text [.scalar j]) (hstep : r.step (.scalar j) = some r') : Moves text r r' := by
  refine ⟨_, h, ?_⟩
  rw [List.foldlM_cons, hstep]
  rfl

end Moves

theorem Spells.scalar (h : Lexes text [.scalar j]) : Spells text j := fun _ => .scalar h rfl

/-- Where the first item of an array is due, a value may stand. -/
theorem Spells.firstItem (h : Spells text j) : Moves text (.firstItem outer) (.afterItem [j] outer) := by
  obtain ⟨ts, hts, hrun⟩ := h (.items [] :: outer)
  refine ⟨ts, hts, ?_⟩
  cases ts with
  | nil => cases hrun
  | cons t ts =>
    rw [List.foldlM_cons] at hrun ⊢
    -- no value begins with the token that would end the array
    cases t with
    | closeArray => cases hrun
    | _ => exact hrun

theorem read?_of_spells {s : String} (h : Spells s.toList j) : read? s = some j := by
  obtain ⟨ts, hts, hrun⟩ := h []
  have htokens : tokens? s.toList = some ts := by
    have hall := hts [] parted_nil
    rw [List.append_nil, tokens?] at hall
    rw [hall, Option.map_some, List.append_nil]
  rw [read?, htokens]
  show (ts.foldlM Reading.step (.value [])).bind _ = _
  rw [hrun]
  rfl

end

/-! ## Brackets -/

section

variable {β : Type} {first : Reading} {after : List β → Reading} {text : β → List Char} {bs : List β}

/-- The text is read as one part of a bracket, the first or any other. -/
structure Part (first : Reading) (after : List β → Reading) (text : List Char) (b : β) : Prop where
  begin : Moves text first (after [b])
  next (done : List β) : Moves (',' :: text) (after done) (after (b :: done))

theorem moves_parts (h : ∀ b ∈ bs, Part first after (text b) b) (done : List β) :
    Moves (bs.flatMap fun b => ',' :: text b) (after done) (after (bs.reverse ++ done)) := by
  induction bs generalizing done with
  | nil => exact .refl _
  | cons b bs ih =>
    obtain ⟨hb, hbs⟩ := List.forall_mem_cons.1 h
    have hparted : Parted (bs.flatMap fun b => ',' :: text b) := by
      cases bs with
      | nil => exact parted_nil
      | cons => exact parted_cons (by decide)
    rw [List.reverse_cons, List.append_assoc]
    exact (hb.next done).append (ih hbs (b :: done)) hparted

theorem intercalate_cons (sep x : List Char) (xs : List (List Char)) :
    sep.intercalate (x :: xs) = x ++ xs.flatMap (sep ++ ·) := by
  induction xs generalizing x with
  | nil => simp
  | cons y xs ih => simp [ih]

/-- The parts of a bracket with commas between them. -/
theorem Part.moves {b : β} (h : ∀ a ∈ b :: bs, Part first after (text a) a) :
    Moves ([','].intercalate ((b :: bs).map text)) first (after (b :: bs).reverse) := by
  obtain ⟨hb, hbs⟩ := List.forall_mem_cons.1 h
  rw [List.map_cons, intercalate_cons, List.flatMap_map, List.reverse_cons]
  refine hb.begin.append (moves_parts hbs [b]) ?_
  cases bs with
  | nil => exact parted_nil
  | cons => exact parted_cons (by decide)

theorem parted_bracket {margin : List Char} {closing : Char} (hm : ∀ c ∈ margin, isBlank c = true)
    (hc : closing = ']' ∨ closing = '\x7d') : Parted (margin ++ [closing]) := by
  refine Parted.append (fun c hc => ?_) (parted_cons ?_)
  · have hblank := hm c (List.mem_of_mem_head? hc)
    simp only [isBlank, Bool.or_eq_true, decide_eq_true_eq] at hblank
    rcases hblank with ((rfl | rfl) | rfl) | rfl <;> decide
  · rcases hc with rfl | rfl <;> decide

/-- Items with commas between them, in brackets, the last perhaps after blanks. -/
theorem spells_array (margin : List Char) (text : Json → List Char) {items : List Json}
    (hm : ∀ c ∈ margin, isBlank c = true) (h : ∀ j ∈ items, Spells (text j) j) :
    Spells ('[' :: ([','].intercalate (items.map text) ++ (margin ++ [']']))) (.array items) := by
  intro outer
  have hpart : ∀ j ∈ items, Part (.firstItem outer) (.afterItem · outer) (text j) j := fun j hj =>
    ⟨(h j hj).firstItem, fun done =>
      .symbol rfl (fun _ => rfl) rfl (h j hj (.items done :: outer))⟩
  refine .symbol rfl (fun _ => rfl) rfl ?_
  cases items with
  | nil =>
    show Moves (margin ++ [']']) _ _
    exact .blanks hm (.symbol rfl (fun _ => rfl) rfl (.refl _))
  | cons j items =>
    refine (Part.moves hpart).append (.blanks hm (.symbol rfl (fun _ => rfl) ?_ (.refl _)))
      (parted_bracket hm (.inl rfl))
    show some (deliver (.array (j :: items).reverse.reverse) outer) = _
    rw [List.reverse_reverse]

/-- A name, a colon and a value, the value perhaps after a blank. -/
def fieldText (gap : List Char) (text : Json → List Char) (f : String × Json) : List Char :=
  (quoted f.1).toList ++ ':' :: (gap ++ text f.2)

theorem moves_field {f : String × Json} {text : Json → List Char} {gap : List Char} {r : Reading}
    {done : List (Name × Json)} {outer : List Frame} (hgap : ∀ c ∈ gap, isBlank c = true)
    (h : Spells (text f.2) f.2)
    (hname : r.step (.scalar (.string f.1)) = some (.colon done (some f.1) outer)) :
    Moves (fieldText gap text f) r (.afterField ((some f.1, f.2) :: done) outer) := by
  have hvalue := h (.fields done (some f.1) :: outer)
  exact (Moves.scalar (lexes_quoted f.1) hname).append
    (.symbol rfl (fun _ => rfl) rfl (.blanks hgap hvalue)) (parted_cons (by decide))

theorem objectOf_reverse (fields : List (String × Json)) :
    objectOf (fields.map fun f => ((some f.1 : Name), f.2)).reverse = .object fields := by
  have hnames : (fields.map fun f => ((some f.1 : Name), f.2)).mapM
      (fun (name, v) => name.map fun n => (n, v)) = some fields := by
    induction fields with
    | nil => rfl
    | cons f fields ih =>
      rw [List.map_cons, List.mapM_cons, ih]
      rfl
  rw [objectOf, List.reverse_reverse, hnames]

/-- Fields with commas between them, in braces, the last perhaps after blanks. -/
theorem spells_object (front gap margin : List Char) (text : Json → List Char)
    {fields : List (String × Json)} (hfront : ∀ c ∈ front, isBlank c = true)
    (hgap : ∀ c ∈ gap, isBlank c = true) (hm : ∀ c ∈ margin, isBlank c = true)
    (h : ∀ f ∈ fields, Spells (text f.2) f.2) :
    Spells ('\x7b' :: ([','].intercalate (fields.map fun f => front ++ fieldText gap text f) ++
      (margin ++ ['\x7d']))) (.object fields) := by
  intro outer
  have hpart : ∀ f ∈ fields, Part (.firstName outer)
      (fun done => .afterField (done.map fun f => (some f.1, f.2)) outer)
      (front ++ fieldText gap text f) f := fun f hf =>
    ⟨.blanks hfront (moves_field hgap (h f hf) rfl), fun done =>
      .symbol rfl (fun _ => rfl) rfl (.blanks hfront (moves_field hgap (h f hf) rfl))⟩
  refine .symbol rfl (fun _ => rfl) rfl ?_
  cases fields with
  | nil =>
    show Moves (margin ++ ['\x7d']) _ _
    exact .blanks hm (.symbol rfl (fun _ => rfl) rfl (.refl _))
  | cons f fields =>
    refine (Part.moves hpart).append (.blanks hm (.symbol rfl (fun _ => rfl) ?_ (.refl _)))
      (parted_bracket hm (.inr rfl))
    show some (deliver (objectOf ((f :: fields).reverse.map _)) outer) = _
    rw [List.map_reverse, objectOf_reverse]

end

/-! ## Printed values -/

theorem compactItems_eq_map (items : List Json) : compactItems items = items.map compact := by
  induction items with
  | nil => rfl
  | cons j items ih => rw [compactItems, ih, List.map_cons]

theorem compactFields_eq_map (fields : List (String × Json)) :
    compactFields fields = fields.map fun f => quoted f.1 ++ ":" ++ compact f.2 := by
  induction fields with
  | nil => rfl
  | cons f fields ih => rw [compactFields, ih, List.map_cons]

theorem prettyItems_eq_map (depth : Nat) (items : List Json) :
    prettyItems depth items = items.map (prettyAt depth) := by
  induction items with
  | nil => rfl
  | cons j items ih => rw [prettyItems, ih, List.map_cons]

theorem prettyFields_eq_map (depth : Nat) (fields : List (String × Json)) :
    prettyFields depth fields = fields.map fun f => quoted f.1 ++ ": " ++ prettyAt depth f.2 := by
  induction fields with
  | nil => rfl
  | cons f fields ih => rw [prettyFields, ih, List.map_cons]

/-- A new line and the blanks that begin it. -/
def margin (depth : Nat) : List Char := '\n' :: List.replicate (2 * depth) ' '

theorem isBlank_of_mem_margin {depth : Nat} : ∀ c ∈ margin depth, isBlank c = true := by
  intro c hc
  rcases List.mem_cons.1 hc with rfl | hc
  · rfl
  · rw [List.eq_of_mem_replicate hc]
    rfl

/-- The margin before an end that has a line of its own. -/
theorem isBlank_of_mem_closing {α : Type} {lines : List α} {depth : Nat} :
    ∀ c ∈ if lines.isEmpty then [] else margin depth, isBlank c = true := by
  split
  · nofun
  · exact isBlank_of_mem_margin

theorem toList_pushn (s : String) (c : Char) (n : Nat) :
    (s.pushn c n).toList = s.toList ++ List.replicate n c := by
  induction n with
  | zero => exact (List.append_nil _).symm
  | succ n ih =>
    show ((s.pushn c n).push c).toList = _
    rw [String.toList_push, ih, List.append_assoc, List.replicate_succ']

theorem toList_bracketed (opening closing : String) (depth : Nat) (lines : List String) :
    (bracketed opening closing depth lines).toList = opening.toList ++
      ([','].intercalate (lines.map fun l => margin (depth + 1) ++ l.toList) ++
        ((if lines.isEmpty then [] else margin depth) ++ closing.toList)) := by
  unfold bracketed
  split
  · next h =>
    rw [List.isEmpty_iff.1 h, String.toList_append]
    rfl
  · simp [String.toList_intercalate, Function.comp_def, margin, toList_pushn]

theorem spells_bool (b : Bool) : Spells (scalarText (.bool b)).toList (.bool b) := by
  cases b with
  | true => exact .scalar lexes_true
  | false => exact .scalar lexes_false

namespace Plain

variable {j : Json}

theorem spells_compact (h : j.Plain) : Spells j.compact.toList j := by
  induction h with
  | null => exact .scalar lexes_null
  | bool b => exact spells_bool b
  | integer n => exact .scalar (lexes_integer n)
  | string s => exact .scalar (lexes_quoted s)
  | array _ ih =>
    have hall := spells_array [] (fun j => j.compact.toList) nofun ih
    rw [compact, compactItems_eq_map]
    simpa [String.toList_intercalate, Function.comp_def] using hall
  | object _ ih =>
    have hall := spells_object [] [] [] (fun j => j.compact.toList) nofun nofun nofun ih
    rw [compact, compactFields_eq_map]
    simpa [String.toList_intercalate, Function.comp_def, fieldText] using hall

theorem spells_pretty (h : j.Plain) (depth : Nat) : Spells (j.prettyAt depth).toList j := by
  induction h generalizing depth with
  | null => exact .scalar lexes_null
  | bool b => exact spells_bool b
  | integer n => exact .scalar (lexes_integer n)
  | string s => exact .scalar (lexes_quoted s)
  | @array items _ ih =>
    have hall := spells_array (if items.isEmpty then [] else margin depth)
      (fun j => margin (depth + 1) ++ (j.prettyAt (depth + 1)).toList) isBlank_of_mem_closing
      fun j hj outer => .blanks isBlank_of_mem_margin (ih j hj (depth + 1) outer)
    rw [prettyAt, prettyItems_eq_map, toList_bracketed]
    simpa [Function.comp_def] using hall
  | @object fields _ ih =>
    have hgap : ∀ c ∈ [' '], isBlank c = true := by simp [isBlank]
    have hall := spells_object (margin (depth + 1)) [' '] (if fields.isEmpty then [] else margin depth)
      (fun j => (j.prettyAt (depth + 1)).toList) isBlank_of_mem_margin hgap isBlank_of_mem_closing
      fun f hf => ih f hf (depth + 1)
    rw [prettyAt, prettyFields_eq_map, toList_bracketed]
    simpa [Function.comp_def, fieldText] using hall

theorem read?_compact (h : j.Plain) : read? j.compact = some j := read?_of_spells h.spells_compact

theorem read?_pretty (h : j.Plain) : read? j.pretty = some j := read?_of_spells (h.spells_pretty 0)

end Plain

end Stave.Json
