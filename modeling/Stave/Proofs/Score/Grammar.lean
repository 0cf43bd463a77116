import Stave.Score.Reader

/-!
# The grammar of the notation

Which lexemes form a score, and what score they form, without a word about how they are read.

    score    := element*
    element  := tone note-mark* | block time-mark*
    tone     := number | name
    block    := '~' | '(' element+ ')' | '[' element+ (',' element+)* ']'
    note-mark := time-mark | '^' | '_' | '!' | ''' | '='
    time-mark := '@' number | '/' number | '.'

A phrase is a derivation of an element.  It spells its lexemes, each where it stands, and if its
numbers can be held it means a node.  No lexemes have two derivations.

    phraseLexemes ps = phraseLexemes qs → ps = qs                         (phraseLexemes_injective)
-/

namespace Stave.Score

/-! ## Derivations -/

/-- A lexeme of some token. -/
abbrev Terminal (t : Token) := { l : Lexeme // l.token = t }

def AmountMark.token : AmountMark → Token
  | .multiply => .multiply
  | .divide => .divide

inductive TimeMark where
  | amount (kind : AmountMark) (symbol : Terminal kind.token) (number : Terminal .number)
  | dot (symbol : Terminal .dot)

/-- The marks that only a note bears. -/
inductive Inflection where
  | up
  | down
  | accent
  | staccato
  | tenuto

def Inflection.token : Inflection → Token
  | .up => .up
  | .down => .down
  | .accent => .accent
  | .staccato => .staccato
  | .tenuto => .tenuto

inductive NoteMark where
  | time (mark : TimeMark)
  | inflection (kind : Inflection) (symbol : Terminal kind.token)

inductive ToneWord where
  | degree (number : Terminal .number)
  | name (word : Terminal .noteName)

mutual

/-- A derivation of an element. -/
inductive Phrase where
  | tone (word : ToneWord) (marks : List NoteMark)
  | block (block : Block) (marks : List TimeMark)

inductive Block where
  | rest (symbol : Terminal .rest)
  | group (opened : Terminal .openGroup) (first : Phrase) (others : List Phrase)
      (closed : Terminal .closeGroup)
  | parallel (opened : Terminal .openParallel) (voices : Voices) (closed : Terminal .closeParallel)

/-- Voices and the commas between them. -/
inductive Voices where
  | last (first : Phrase) (others : List Phrase)
  | more (first : Phrase) (others : List Phrase) (comma : Terminal .comma) (rest : Voices)

end

/-! ## What a derivation spells -/

def TimeMark.lexemes : TimeMark → List Lexeme
  | .amount _ symbol number => [symbol, number]
  | .dot symbol => [symbol]

def NoteMark.lexemes : NoteMark → List Lexeme
  | .time mark => mark.lexemes
  | .inflection _ symbol => [symbol]

def ToneWord.lexeme : ToneWord → Lexeme
  | .degree number => number
  | .name word => word

mutual

def Phrase.lexemes : Phrase → List Lexeme
  | .tone word marks => word.lexeme :: marks.flatMap NoteMark.lexemes
  | .block block marks => block.lexemes ++ marks.flatMap TimeMark.lexemes

def Block.lexemes : Block → List Lexeme
  | .rest symbol => [symbol]
  | .group opened first others closed => opened :: (first.lexemes ++ phraseLexemes others ++ [↑closed])
  | .parallel opened voices closed => opened :: (voices.lexemes ++ [↑closed])

def Voices.lexemes : Voices → List Lexeme
  | .last first others => first.lexemes ++ phraseLexemes others
  | .more first others comma rest => first.lexemes ++ phraseLexemes others ++ comma.val :: rest.lexemes

def phraseLexemes : List Phrase → List Lexeme
  | [] => []
  | p :: ps => p.lexemes ++ phraseLexemes ps

end

/-! ## What a derivation means -/

/-- A duration under an amount, which must be readable, not negative, and positive if it divides. -/
def AmountMark.scale? (kind : AmountMark) (duration : Ratio) (amount : List Char) : Option Ratio := do
  let amount ← Ratio.ofDecimal? amount
  match kind with
  | .multiply => if 0 ≤ amount then duration.mul? amount else none
  | .divide => if 0 < amount then duration.div? amount else none

def TimeMark.scale? (duration : Ratio) : TimeMark → Option Ratio
  | .amount kind _ number => kind.scale? duration number.val.text
  | .dot _ => some duration

@[simp] def TimeMark.isDot : TimeMark → Bool
  | .amount _ _ _ => false
  | .dot _ => true

/-- The duration that marks give, from left to right and then all dots at once. -/
def factor? (marks : List TimeMark) : Option Ratio := do
  (← marks.foldlM TimeMark.scale? 1).mul? (← dotFactor? (marks.countP TimeMark.isDot))

@[simp] def NoteMark.time? : NoteMark → Option TimeMark
  | .time mark => some mark
  | .inflection _ _ => none

@[simp] def Inflection.octave? : Inflection → Option Int
  | .up => some 1
  | .down => some (-1)
  | .accent | .staccato | .tenuto => none

@[simp] def Inflection.articulation? : Inflection → Option Articulation
  | .up | .down => none
  | .accent => some .accent
  | .staccato => some .staccato
  | .tenuto => some .tenuto

@[simp] def NoteMark.octave? : NoteMark → Option Int
  | .time _ => none
  | .inflection kind _ => kind.octave?

@[simp] def NoteMark.articulation? : NoteMark → Option Articulation
  | .time _ => none
  | .inflection kind _ => kind.articulation?

/-- Octaves up and down stop counting at the ends of 32 bits. -/
def octaveShift (marks : List NoteMark) : Int :=
  (marks.filterMap NoteMark.octave?).foldl (fun shift octave => Width.int32.clamp (shift + octave)) 0

/-- The last lexeme of a mark. -/
def NoteMark.last : NoteMark → Lexeme
  | .time (.amount _ _ number) => number
  | .time (.dot symbol) => symbol
  | .inflection _ symbol => symbol

/-- The span of an element up to its last mark. -/
def markedSpan (core : Span) (marks : List NoteMark) : Span :=
  (marks.getLast?.map NoteMark.last).elim core fun l => core.merge l.span

/-- The element that a core is when all else about it is known. -/
def Core.element (core : Core) (shift : Int) (articulations : List Articulation) (factor : Ratio)
    (span : Span) : Node :=
  match core with
  | .note tone => .note ⟨tone, factor, shift, articulations, span⟩
  | .rest => .rest ⟨factor, span⟩
  | .group elements => .group elements factor span
  | .parallel voices => .parallel voices factor span

/-- A core under its marks, if they give it a duration that can be held. -/
def Core.marked? (core : Core) (span : Span) (marks : List NoteMark) : Option Node := do
  return core.element (octaveShift marks) (marks.filterMap NoteMark.articulation?)
    (← factor? (marks.filterMap NoteMark.time?)) (markedSpan span marks)

/-- A degree is a whole number of 64 bits; the octave of a name has 32. -/
def ToneWord.tone? : ToneWord → Option Tone
  | .degree number =>
    if number.val.text.contains '.' then none
    else (Numeral.integer? .int64 number.val.text).map .degree
  | .name word => (NoteName.read? word.val.text).map .named

/-- Elements one after another as a voice, from the first to the last. -/
def voice (first : Node) (others : List Node) : Sequence :=
  ⟨first :: others, first.span.merge (others.getLastD first).span⟩

def Block.span : Block → Span
  | .rest symbol => symbol.val.span
  | .group opened _ _ closed => opened.val.span.merge closed.val.span
  | .parallel opened _ closed => opened.val.span.merge closed.val.span

mutual

def Phrase.node? : Phrase → Option Node
  | .tone word marks => do (Core.note (← word.tone?)).marked? word.lexeme.span marks
  | .block block marks => do (← block.core?).marked? block.span (marks.map .time)

def Block.core? : Block → Option Core
  | .rest _ => some .rest
  | .group _ first others _ => do return .group ((← first.node?) :: (← phraseNodes? others))
  | .parallel _ voices _ => do return .parallel (← voices.sequences?)

def Voices.sequences? : Voices → Option (List Sequence)
  | .last first others => do return [voice (← first.node?) (← phraseNodes? others)]
  | .more first others _ rest => do
    return voice (← first.node?) (← phraseNodes? others) :: (← rest.sequences?)

def phraseNodes? : List Phrase → Option (List Node)
  | [] => some []
  | p :: ps => do return (← p.node?) :: (← phraseNodes? ps)

end

section

variable {p : Phrase} {ps : List Phrase} {ns : List Node}

theorem phraseNodes?_nil_eq_some : phraseNodes? [] = some ns ↔ ns = [] := by
  rw [phraseNodes?, Option.some_inj, eq_comm]

theorem phraseNodes?_cons_eq_some : phraseNodes? (p :: ps) = some ns ↔
    ∃ m ms, p.node? = some m ∧ phraseNodes? ps = some ms ∧ ns = m :: ms := by
  rw [phraseNodes?]
  constructor
  · intro h
    obtain ⟨m, hm, h⟩ := Option.bind_eq_some_iff.1 h
    obtain ⟨ms, hms, h⟩ := Option.bind_eq_some_iff.1 h
    cases h
    exact ⟨m, ms, hm, hms, rfl⟩
  · rintro ⟨m, ms, hm, hms, rfl⟩
    rw [hm, hms]
    rfl

variable {comma : Terminal .comma} {rest : Voices} {ss : List Sequence}

theorem sequences?_last_eq_some : (Voices.last p ps).sequences? = some ss ↔
    ∃ m ms, p.node? = some m ∧ phraseNodes? ps = some ms ∧ ss = [voice m ms] := by
  rw [Voices.sequences?]
  constructor
  · intro h
    obtain ⟨m, hm, h⟩ := Option.bind_eq_some_iff.1 h
    obtain ⟨ms, hms, h⟩ := Option.bind_eq_some_iff.1 h
    cases h
    exact ⟨m, ms, hm, hms, rfl⟩
  · rintro ⟨m, ms, hm, hms, rfl⟩
    rw [hm, hms]
    rfl

theorem sequences?_more_eq_some : (Voices.more p ps comma rest).sequences? = some ss ↔
    ∃ m ms ts, p.node? = some m ∧ phraseNodes? ps = some ms ∧ rest.sequences? = some ts ∧
      ss = voice m ms :: ts := by
  rw [Voices.sequences?]
  constructor
  · intro h
    obtain ⟨m, hm, h⟩ := Option.bind_eq_some_iff.1 h
    obtain ⟨ms, hms, h⟩ := Option.bind_eq_some_iff.1 h
    obtain ⟨ts, hts, h⟩ := Option.bind_eq_some_iff.1 h
    cases h
    exact ⟨m, ms, ts, hm, hms, hts, rfl⟩
  · rintro ⟨m, ms, ts, hm, hms, hts, rfl⟩
    rw [hm, hms, hts]
    rfl

variable {opened : Terminal .openGroup} {closed : Terminal .closeGroup} {core : Core}

theorem core?_group_eq_some : (Block.group opened p ps closed).core? = some core ↔
    ∃ m ms, p.node? = some m ∧ phraseNodes? ps = some ms ∧ core = .group (m :: ms) := by
  rw [Block.core?]
  constructor
  · intro h
    obtain ⟨m, hm, h⟩ := Option.bind_eq_some_iff.1 h
    obtain ⟨ms, hms, h⟩ := Option.bind_eq_some_iff.1 h
    cases h
    exact ⟨m, ms, hm, hms, rfl⟩
  · rintro ⟨m, ms, hm, hms, rfl⟩
    rw [hm, hms]
    rfl

end

/-! ## One derivation -/

def Token.isMark : Token → Bool
  | multiply | divide | dot | up | down | accent | staccato | tenuto => true
  | _ => false

/-- A text that starts with no mark. -/
def Markless (ls : List Lexeme) : Prop := ∀ l ∈ ls.head?, l.token.isMark = false

/-- A text that starts with no mark and no element. -/
def Ended (ls : List Lexeme) : Prop :=
  ∀ l ∈ ls.head?, l.token.isMark = false ∧ l.token.startsElement = false

theorem ended_nil : Ended [] := fun l hl => absurd hl (Option.not_mem_none l)

theorem Ended.markless {ls : List Lexeme} (h : Ended ls) : Markless ls := fun l hl => (h l hl).1

theorem AmountMark.token_injective : Function.Injective AmountMark.token := by
  intro a b h
  cases a <;> cases b <;> first | rfl | cases h

theorem Inflection.token_injective : Function.Injective Inflection.token := by
  intro a b h
  cases a <;> cases b <;> first | rfl | cases h

section

variable {t t' : List Lexeme}

theorem NoteMark.lexemes_isMark (m : NoteMark) :
    ∃ l ls, m.lexemes = l :: ls ∧ l.token.isMark = true := by
  rcases m with (⟨kind, symbol, number⟩ | symbol) | ⟨kind, symbol⟩
  · refine ⟨symbol, [number.val], rfl, ?_⟩
    rw [symbol.2]
    cases kind <;> rfl
  · refine ⟨symbol, [], rfl, ?_⟩
    rw [symbol.2]
    rfl
  · refine ⟨symbol, [], rfl, ?_⟩
    rw [symbol.2]
    cases kind <;> rfl

theorem Terminal.token_eq {a b : Token} {x : Terminal a} {y : Terminal b} (h : x.val = y.val) :
    a = b := by
  rw [← x.2, h, y.2]

/-- The lexemes of a mark tell which mark it is, and where it ends. -/
theorem NoteMark.lexemes_unique {m n : NoteMark} (h : m.lexemes ++ t = n.lexemes ++ t') :
    m = n ∧ t = t' := by
  rcases m with (⟨kind, symbol, number⟩ | symbol) | ⟨kind, symbol⟩ <;>
    rcases n with (⟨kind', symbol', number'⟩ | symbol') | ⟨kind', symbol'⟩ <;>
    obtain ⟨hsymbol, hrest⟩ := List.cons.inj h <;>
    have htoken := Terminal.token_eq hsymbol
  · obtain rfl := AmountMark.token_injective htoken
    obtain ⟨hnumber, rfl⟩ := List.cons.inj hrest
    rw [Subtype.ext hsymbol, Subtype.ext hnumber]
    exact ⟨rfl, rfl⟩
  · cases kind <;> cases htoken
  · cases kind <;> cases kind' <;> cases htoken
  · cases kind' <;> cases htoken
  · rw [Subtype.ext hsymbol]
    exact ⟨rfl, hrest⟩
  · cases kind' <;> cases htoken
  · cases kind <;> cases kind' <;> cases htoken
  · cases kind <;> cases htoken
  · obtain rfl := Inflection.token_injective htoken
    rw [Subtype.ext hsymbol]
    exact ⟨rfl, hrest⟩

theorem noteMarks_unique {ms ns : List NoteMark} (ht : Markless t) (ht' : Markless t')
    (h : ms.flatMap NoteMark.lexemes ++ t = ns.flatMap NoteMark.lexemes ++ t') :
    ms = ns ∧ t = t' := by
  induction ms generalizing ns with
  | nil =>
    cases ns with
    | nil => exact ⟨rfl, h⟩
    | cons n ns =>
      obtain ⟨l, ls, hl, hm⟩ := n.lexemes_isMark
      rw [List.flatMap_nil, List.nil_append, List.flatMap_cons, hl] at h
      have := ht l (by rw [h]; rfl)
      rw [hm] at this
      cases this
  | cons m ms ih =>
    cases ns with
    | nil =>
      obtain ⟨l, ls, hl, hm⟩ := m.lexemes_isMark
      rw [List.flatMap_nil, List.nil_append, List.flatMap_cons, hl] at h
      have := ht' l (by rw [← h]; rfl)
      rw [hm] at this
      cases this
    | cons n ns =>
      rw [List.flatMap_cons, List.flatMap_cons, List.append_assoc, List.append_assoc] at h
      obtain ⟨rfl, hrest⟩ := NoteMark.lexemes_unique h
      obtain ⟨rfl, hend⟩ := ih hrest
      exact ⟨rfl, hend⟩

theorem flatMap_time (ms : List TimeMark) :
    (ms.map NoteMark.time).flatMap NoteMark.lexemes = ms.flatMap TimeMark.lexemes := List.flatMap_map ..

theorem timeMarks_unique {ms ns : List TimeMark} (ht : Markless t) (ht' : Markless t')
    (h : ms.flatMap TimeMark.lexemes ++ t = ns.flatMap TimeMark.lexemes ++ t') :
    ms = ns ∧ t = t' := by
  rw [← flatMap_time, ← flatMap_time] at h
  obtain ⟨hmarks, hend⟩ := noteMarks_unique ht ht' h
  exact ⟨(List.map_inj_right fun _ _ h => NoteMark.time.inj h).1 hmarks, hend⟩

theorem ToneWord.token_cases (w : ToneWord) :
    w.lexeme.token = .number ∨ w.lexeme.token = .noteName := by
  cases w with
  | degree number => exact .inl number.2
  | name word => exact .inr word.2

theorem ToneWord.lexeme_injective : Function.Injective ToneWord.lexeme := by
  intro v w h
  cases v with
  | degree number =>
    cases w with
    | degree number' => rw [Subtype.ext h]
    | name word => cases Terminal.token_eq h
  | name word =>
    cases w with
    | degree number => cases Terminal.token_eq h
    | name word' => rw [Subtype.ext h]

theorem Block.begins (b : Block) :
    ∃ l ls, b.lexemes = l :: ls ∧
      (l.token = .rest ∨ l.token = .openGroup ∨ l.token = .openParallel) := by
  cases b with
  | rest symbol => exact ⟨symbol, [], by rw [Block.lexemes], .inl symbol.2⟩
  | group opened first others closed =>
    exact ⟨opened, _, by rw [Block.lexemes], .inr (.inl opened.2)⟩
  | parallel opened voices closed =>
    exact ⟨opened, _, by rw [Block.lexemes], .inr (.inr opened.2)⟩

theorem Phrase.begins (p : Phrase) :
    ∃ l ls, p.lexemes = l :: ls ∧ l.token.startsElement = true ∧ l.token.isMark = false := by
  cases p with
  | tone word marks =>
    refine ⟨word.lexeme, _, by rw [Phrase.lexemes], ?_⟩
    rcases word.token_cases with h | h <;> rw [h] <;> exact ⟨rfl, rfl⟩
  | block block marks =>
    obtain ⟨l, ls, hl, htoken⟩ := block.begins
    refine ⟨l, ls ++ marks.flatMap TimeMark.lexemes, by rw [Phrase.lexemes, hl, List.cons_append], ?_⟩
    rcases htoken with h | h | h <;> rw [h] <;> exact ⟨rfl, rfl⟩

theorem markless_phraseLexemes (ps : List Phrase) (ht : Ended t) : Markless (phraseLexemes ps ++ t) := by
  cases ps with
  | nil =>
    rw [phraseLexemes]
    exact ht.markless
  | cons p ps =>
    obtain ⟨l, ls, hl, -, hmark⟩ := p.begins
    rw [phraseLexemes, hl]
    intro x hx
    cases hx
    exact hmark

theorem Ended.ne_append {p : Phrase} {ls : List Lexeme} (ht : Ended t) : t ≠ p.lexemes ++ ls := by
  rintro rfl
  obtain ⟨l, rest, hl, hstarts, -⟩ := p.begins
  have hends := (ht l (by rw [hl]; rfl)).2
  rw [hstarts] at hends
  cases hends

theorem ToneWord.ne_block {w : ToneWord} {b : Block} {ls ms : List Lexeme} :
    w.lexeme :: ls ≠ b.lexemes ++ ms := by
  intro h
  obtain ⟨l, rest, hl, htoken⟩ := b.begins
  rw [hl] at h
  obtain ⟨rfl, -⟩ := List.cons.inj h
  rcases w.token_cases with hw | hw <;> rw [hw] at htoken <;> simp at htoken

theorem ended_of_token {l : Lexeme} {ls : List Lexeme} (hmark : l.token.isMark = false)
    (hstarts : l.token.startsElement = false) : Ended (l :: ls) := by
  intro x hx
  cases hx
  exact ⟨hmark, hstarts⟩

theorem ended_closed {token : Token} (l : Terminal token) (ls : List Lexeme)
    (h : token.isMark = false ∧ token.startsElement = false) : Ended (l.val :: ls) := by
  apply ended_of_token <;> rw [l.2]
  · exact h.1
  · exact h.2

mutual

/-- Where what follows a phrase cannot belong to it, its lexemes have no other derivation. -/
theorem Phrase.lexemes_unique {t t' : List Lexeme} (ht : Markless t) (ht' : Markless t') :
    ∀ {p q : Phrase}, p.lexemes ++ t = q.lexemes ++ t' → p = q ∧ t = t'
  | .tone word marks, .tone word' marks', h => by
    rw [Phrase.lexemes, Phrase.lexemes] at h
    obtain ⟨hword, hrest⟩ := List.cons.inj h
    obtain ⟨rfl, hend⟩ := noteMarks_unique ht ht' hrest
    rw [ToneWord.lexeme_injective hword]
    exact ⟨rfl, hend⟩
  | .tone word marks, .block block marks', h => by
    rw [Phrase.lexemes, Phrase.lexemes, List.append_assoc] at h
    exact absurd h ToneWord.ne_block
  | .block block marks, .tone word' marks', h => by
    rw [Phrase.lexemes, Phrase.lexemes, List.append_assoc] at h
    exact absurd h.symm ToneWord.ne_block
  | .block block marks, .block block' marks', h => by
    rw [Phrase.lexemes, Phrase.lexemes, List.append_assoc, List.append_assoc] at h
    obtain ⟨rfl, hrest⟩ := Block.lexemes_unique h
    obtain ⟨rfl, hend⟩ := timeMarks_unique ht ht' hrest
    exact ⟨rfl, hend⟩
termination_by structural p => p

theorem Block.lexemes_unique {t t' : List Lexeme} : ∀ {b c : Block},
    b.lexemes ++ t = c.lexemes ++ t' → b = c ∧ t = t'
  | .rest symbol, .rest symbol', h => by
    rw [Block.lexemes, Block.lexemes] at h
    obtain ⟨hsymbol, hend⟩ := List.cons.inj h
    rw [Subtype.ext hsymbol]
    exact ⟨rfl, hend⟩
  | .group opened first others closed, .group opened' first' others' closed', h => by
    rw [Block.lexemes, Block.lexemes, List.cons_append, List.cons_append, List.append_assoc,
      List.append_assoc, List.append_assoc, List.append_assoc] at h
    obtain ⟨hopened, hrest⟩ := List.cons.inj h
    have hend := ended_closed closed t ⟨rfl, rfl⟩
    have hend' := ended_closed closed' t' ⟨rfl, rfl⟩
    obtain ⟨rfl, hothers⟩ := Phrase.lexemes_unique (markless_phraseLexemes others hend)
      (markless_phraseLexemes others' hend') hrest
    obtain ⟨rfl, hclosed⟩ := phraseLexemes_unique hend hend' hothers
    obtain ⟨hclosed, htail⟩ := List.cons.inj hclosed
    rw [Subtype.ext hopened, Subtype.ext hclosed]
    exact ⟨rfl, htail⟩
  | .parallel opened voices closed, .parallel opened' voices' closed', h => by
    rw [Block.lexemes, Block.lexemes, List.cons_append, List.cons_append, List.append_assoc,
      List.append_assoc] at h
    obtain ⟨hopened, hrest⟩ := List.cons.inj h
    obtain ⟨rfl, hclosed⟩ := Voices.lexemes_unique closed.2 closed'.2 hrest
    obtain ⟨hclosed, htail⟩ := List.cons.inj hclosed
    rw [Subtype.ext hopened, Subtype.ext hclosed]
    exact ⟨rfl, htail⟩
  | .rest symbol, .group opened first others closed, h => by
    rw [Block.lexemes, Block.lexemes] at h
    cases Terminal.token_eq (List.cons.inj h).1
  | .rest symbol, .parallel opened voices closed, h => by
    rw [Block.lexemes, Block.lexemes] at h
    cases Terminal.token_eq (List.cons.inj h).1
  | .group opened first others closed, .rest symbol, h => by
    rw [Block.lexemes, Block.lexemes] at h
    cases Terminal.token_eq (List.cons.inj h).1
  | .group opened first others closed, .parallel opened' voices closed', h => by
    rw [Block.lexemes, Block.lexemes] at h
    cases Terminal.token_eq (List.cons.inj h).1
  | .parallel opened voices closed, .rest symbol, h => by
    rw [Block.lexemes, Block.lexemes] at h
    cases Terminal.token_eq (List.cons.inj h).1
  | .parallel opened voices closed, .group opened' first others closed', h => by
    rw [Block.lexemes, Block.lexemes] at h
    cases Terminal.token_eq (List.cons.inj h).1
termination_by structural b => b

/-- The closing bracket ends the voices. -/
theorem Voices.lexemes_unique {l l' : Lexeme} {t t' : List Lexeme} (hl : l.token = .closeParallel)
    (hl' : l'.token = .closeParallel) : ∀ {v w : Voices},
    v.lexemes ++ l :: t = w.lexemes ++ l' :: t' → v = w ∧ l :: t = l' :: t'
  | .last first others, .last first' others', h => by
    rw [Voices.lexemes, Voices.lexemes, List.append_assoc, List.append_assoc] at h
    have hend := ended_closed ⟨l, hl⟩ t ⟨rfl, rfl⟩
    have hend' := ended_closed ⟨l', hl'⟩ t' ⟨rfl, rfl⟩
    obtain ⟨rfl, hothers⟩ := Phrase.lexemes_unique (markless_phraseLexemes others hend)
      (markless_phraseLexemes others' hend') h
    obtain ⟨rfl, htail⟩ := phraseLexemes_unique hend hend' hothers
    exact ⟨rfl, htail⟩
  | .last first others, .more first' others' comma rest, h => by
    rw [Voices.lexemes, Voices.lexemes, List.append_assoc, List.append_assoc, List.append_assoc] at h
    have hend := ended_closed ⟨l, hl⟩ t ⟨rfl, rfl⟩
    have hcomma := ended_closed comma (rest.lexemes ++ l' :: t') ⟨rfl, rfl⟩
    obtain ⟨rfl, hothers⟩ := Phrase.lexemes_unique (markless_phraseLexemes others hend)
      (markless_phraseLexemes others' hcomma) h
    obtain ⟨-, htail⟩ := phraseLexemes_unique hend hcomma hothers
    obtain ⟨rfl, -⟩ := List.cons.inj htail
    rw [comma.2] at hl
    cases hl
  | .more first others comma rest, .last first' others', h => by
    rw [Voices.lexemes, Voices.lexemes, List.append_assoc, List.append_assoc, List.append_assoc] at h
    have hcomma := ended_closed comma (rest.lexemes ++ l :: t) ⟨rfl, rfl⟩
    have hend := ended_closed ⟨l', hl'⟩ t' ⟨rfl, rfl⟩
    obtain ⟨rfl, hothers⟩ := Phrase.lexemes_unique (markless_phraseLexemes others hcomma)
      (markless_phraseLexemes others' hend) h
    obtain ⟨-, htail⟩ := phraseLexemes_unique hcomma hend hothers
    obtain ⟨rfl, -⟩ := List.cons.inj htail
    rw [comma.2] at hl'
    cases hl'
  | .more first others comma rest, .more first' others' comma' rest', h => by
    rw [Voices.lexemes, Voices.lexemes, List.append_assoc, List.append_assoc, List.append_assoc,
      List.append_assoc] at h
    have hcomma := ended_closed comma (rest.lexemes ++ l :: t) ⟨rfl, rfl⟩
    have hcomma' := ended_closed comma' (rest'.lexemes ++ l' :: t') ⟨rfl, rfl⟩
    obtain ⟨rfl, hothers⟩ := Phrase.lexemes_unique (markless_phraseLexemes others hcomma)
      (markless_phraseLexemes others' hcomma') h
    obtain ⟨rfl, htail⟩ := phraseLexemes_unique hcomma hcomma' hothers
    obtain ⟨hsame, hrest⟩ := List.cons.inj htail
    obtain ⟨rfl, hend⟩ := Voices.lexemes_unique hl hl' hrest
    rw [Subtype.ext hsame]
    exact ⟨rfl, hend⟩
termination_by structural v => v

theorem phraseLexemes_unique {t t' : List Lexeme} (ht : Ended t) (ht' : Ended t') :
    ∀ {ps qs : List Phrase}, phraseLexemes ps ++ t = phraseLexemes qs ++ t' → ps = qs ∧ t = t'
  | [], [], h => ⟨rfl, h⟩
  | [], q :: qs, h => by
    rw [phraseLexemes, phraseLexemes, List.nil_append, List.append_assoc] at h
    exact absurd h ht.ne_append
  | p :: ps, [], h => by
    rw [phraseLexemes, phraseLexemes, List.nil_append, List.append_assoc] at h
    exact absurd h.symm ht'.ne_append
  | p :: ps, q :: qs, h => by
    rw [phraseLexemes, phraseLexemes, List.append_assoc, List.append_assoc] at h
    obtain ⟨rfl, hrest⟩ := Phrase.lexemes_unique (markless_phraseLexemes ps ht)
      (markless_phraseLexemes qs ht') h
    obtain ⟨rfl, hend⟩ := phraseLexemes_unique ht ht' hrest
    exact ⟨rfl, hend⟩
termination_by structural ps => ps

end

end

/-- No lexemes have two derivations. -/
theorem phraseLexemes_injective : Function.Injective phraseLexemes := by
  intro ps qs h
  refine (phraseLexemes_unique ended_nil ended_nil ?_).1
  rw [h]

end Stave.Score
