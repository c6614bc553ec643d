import Piecemeal.Proofs.Numerals

/-!
# The direct semantics

`DirectStyle G M` says clause by clause what `M` makes of a complete list of tokens: a parser on its
own, and a combined parser in terms of its parts. There is no continuation, no checkpoint and no
state of a stream in it. `TextStyle` does the same for the parsers over characters.

The readings obey the clauses (`directStyle_reads`, `textStyle_reads`), and whatever else obeys them
has all these readings too (`DirectStyle.of_reads`). `parseAll_adequate` puts this together with
`parseAll_eq_read`: parsing complete input comes to a verdict exactly where there is a reading, and
then the verdict is that reading.

The parsers that decide on the tokens they see make the same of them wherever the stream is cut, so
their clauses come from what they make of a stream that has arrived and ended (`reads_of_makes`).
-/

namespace Piecemeal

variable {ι : Type} {Γ : ι → Type} {τ α β : Type}

namespace Reading

/-- The end of a line. -/
def lineEnd : List Char → Reading Char Unit
  | '\n' :: rest => success () rest
  | '\r' :: '\n' :: rest => success () rest
  | [] => failure ⟨["demand-input"], "not enough input"⟩ []
  | [c] => failure ⟨["demand-input"], "not enough input"⟩ [c]
  | c :: d :: rest => failure ⟨[], "take-with"⟩ (c :: d :: rest)

theorem eq_of_outcome_eq {s s' : Input τ} {r r' : Reading τ α}
    (h : r.outcome s = r'.leaving s') (hrest : s'.ahead [] = r'.rest) : r = r' := by
  rw [Input.ahead_nil] at hrest
  cases r with
  | success a rest =>
    cases r' with
    | success a' rest' =>
      cases h
      rw [Buffer.toList_ofList] at hrest
      exact congrArg (success a) hrest
    | failure => cases h
  | failure e rest =>
    cases r' with
    | success => cases h
    | failure e' rest' =>
      cases h
      rw [Buffer.toList_ofList] at hrest
      exact congrArg (failure e) hrest

end Reading

namespace Parser

open Reading

/-! ## Clauses -/

structure DirectStyle (G : Rules Γ τ)
    (M : (α : Type) → Parser Γ τ α → List τ → Reading τ α → Prop) : Prop where
  functional : ∀ {α : Type} {p : Parser Γ τ α} {tokens r r'},
    M α p tokens r → M α p tokens r' → r = r'
  -- the primitive parsers
  pure : ∀ {α : Type} {a : α} {tokens r}, M α (.pure a) tokens r ↔ r = success a tokens
  fail : ∀ {α : Type} {message tokens r},
    M α (.fail message) tokens r ↔ r = failure ⟨[], message⟩ tokens
  get : ∀ {tokens r}, M _ .get tokens r ↔ r = success (.ofList tokens) tokens
  put : ∀ {replacement tokens r},
    M _ (.put replacement) tokens r ↔ r = success () replacement.toList
  demandInput : ∀ {tokens r}, M _ .demandInput tokens r ↔
    r = failure ⟨["demand-input"], "not enough input"⟩ tokens
  wantInput : ∀ {tokens r}, M _ .wantInput tokens r ↔ r = success (!tokens.isEmpty) tokens
  bind : ∀ {α β : Type} {p : Parser Γ τ β} {f : β → Parser Γ τ α} {tokens r},
    M α (p.bind f) tokens r ↔
      (∃ b rest, M β p tokens (success b rest) ∧ M α (f b) rest r) ∨
        ∃ e rest, M β p tokens (failure e rest) ∧ r = failure e rest
  -- the second alternative gets the list that the first one got
  alt : ∀ {α : Type} {p q : Parser Γ τ α} {tokens r}, M α (p.alt q) tokens r ↔
    (∃ a rest, M α p tokens (success a rest) ∧ r = success a rest) ∨
      ∃ e rest, M α p tokens (failure e rest) ∧ M α q tokens r
  lookAhead : ∀ {α : Type} {p : Parser Γ τ α} {tokens r}, M α p.lookAhead tokens r ↔
    (∃ a rest, M α p tokens (success a rest) ∧ r = success a tokens) ∨
      ∃ e rest, M α p tokens (failure e rest) ∧ r = failure e tokens
  label : ∀ {α : Type} {p : Parser Γ τ α} {name tokens r}, M α (p.label name) tokens r ↔
    (∃ a rest, M α p tokens (success a rest) ∧ r = success a rest) ∨
      ∃ e rest, M α p tokens (failure e rest) ∧
        r = failure ⟨e.context ++ [name], e.message⟩ rest
  loop : ∀ {σ α : Type} {start : σ} {body : σ → Parser Γ τ (σ ⊕ α)} {tokens r},
    M α (.loop start body) tokens r ↔
      Iterates (fun state => M (σ ⊕ α) (body state)) start tokens r
  rule : ∀ {i tokens r}, M _ (.rule i) tokens r ↔ M _ (G i) tokens r
  total : ∀ {α : Type} {p : Parser Γ τ α} {tokens r}, M α p.total tokens r ↔ M α p tokens r
  -- sequence and alternatives
  map : ∀ {α β : Type} {p : Parser Γ τ α} {f : α → β} {tokens r}, M β (p.map f) tokens r ↔
    (∃ a rest, M α p tokens (success a rest) ∧ r = success (f a) rest) ∨
      ∃ e rest, M α p tokens (failure e rest) ∧ r = failure e rest
  andThen : ∀ {α β : Type} {p : Parser Γ τ β} {q : Parser Γ τ α} {tokens r},
    M α (p.andThen q) tokens r ↔ Both (M β p) (M α q) tokens r
  followedBy : ∀ {α β : Type} {p : Parser Γ τ α} {q : Parser Γ τ β} {tokens r},
    M α (p.followedBy q) tokens r ↔ First (M α p) (M β q) tokens r
  between : ∀ {α β γ : Type} {opening : Parser Γ τ β} {closing : Parser Γ τ γ}
    {p : Parser Γ τ α} {tokens r}, M α (between opening closing p) tokens r ↔
      Both (M β opening) (First (M α p) (M γ closing)) tokens r
  choice_nil : ∀ {α : Type} {tokens} {r : Reading τ α},
    M α (choice []) tokens r ↔ r = failure ⟨[], "choice"⟩ tokens
  choice_singleton : ∀ {α : Type} {p : Parser Γ τ α} {tokens r},
    M α (choice [p]) tokens r ↔ M α p tokens r
  choice_cons : ∀ {α : Type} {p q : Parser Γ τ α} {ps : List (Parser Γ τ α)} {tokens r},
    M α (choice (p :: q :: ps)) tokens r ↔
      (∃ a rest, M α p tokens (success a rest) ∧ r = success a rest) ∨
        ∃ e rest, M α p tokens (failure e rest) ∧ M α (choice (q :: ps)) tokens r
  option : ∀ {α : Type} {p : Parser Γ τ α} {fallback tokens r},
    M α (p.option fallback) tokens r ↔
      (∃ a rest, M α p tokens (success a rest) ∧ r = success a rest) ∨
        (∃ e rest, M α p tokens (failure e rest)) ∧ r = success fallback tokens
  optional : ∀ {α : Type} {p : Parser Γ τ α} {tokens r}, M _ p.optional tokens r ↔
    (∃ a rest, M α p tokens (success a rest) ∧ r = success (some a) rest) ∨
      (∃ e rest, M α p tokens (failure e rest)) ∧ r = success none tokens
  -- repetition
  many : ∀ {α : Type} {p : Parser Γ τ α} {tokens r}, M _ p.many tokens r ↔
    ∃ as rest, Greedy (M α p) tokens as rest ∧ r = success as rest
  many1 : ∀ {α : Type} {p : Parser Γ τ α} {tokens r}, M _ p.many1 tokens r ↔
    (∃ e rest, M α p tokens (failure e rest) ∧ r = failure e rest) ∨
      ∃ a middle as rest, M α p tokens (success a middle) ∧
        Greedy (M α p) middle as rest ∧ r = success (a :: as) rest
  skipMany : ∀ {α : Type} {p : Parser Γ τ α} {tokens r}, M _ p.skipMany tokens r ↔
    ∃ as rest, Greedy (M α p) tokens as rest ∧ r = success () rest
  skipMany1 : ∀ {α : Type} {p : Parser Γ τ α} {tokens r}, M _ p.skipMany1 tokens r ↔
    (∃ e rest, M α p tokens (failure e rest) ∧ r = failure e rest) ∨
      ∃ a middle as rest, M α p tokens (success a middle) ∧
        Greedy (M α p) middle as rest ∧ r = success () rest
  sepBy1 : ∀ {α β : Type} {p : Parser Γ τ α} {q : Parser Γ τ β} {tokens r},
    M _ (p.sepBy1 q) tokens r ↔
      (∃ e rest, M α p tokens (failure e rest) ∧ r = failure e rest) ∨
        ∃ a middle as rest, M α p tokens (success a middle) ∧
          Greedy (Both (M β q) (M α p)) middle as rest ∧ r = success (a :: as) rest
  sepBy : ∀ {α β : Type} {p : Parser Γ τ α} {q : Parser Γ τ β} {tokens r},
    M _ (p.sepBy q) tokens r ↔
      ((∃ e rest, M α p tokens (failure e rest)) ∧ r = success [] tokens) ∨
        ∃ a middle as rest, M α p tokens (success a middle) ∧
          Greedy (Both (M β q) (M α p)) middle as rest ∧ r = success (a :: as) rest
  manyTill : ∀ {α β : Type} {p : Parser Γ τ α} {q : Parser Γ τ β} {tokens r},
    M _ (p.manyTill q) tokens r ↔ Until (M β q) (M α p) tokens r
  count : ∀ {α : Type} {n : Int} {p : Parser Γ τ α} {tokens r},
    M _ (p.count n) tokens r ↔ Times (M α p) n.toNat tokens r
  -- single tokens and blocks
  ensure : ∀ {n : Int} {tokens r}, M _ (ensure n) tokens r ↔
    r = if n ≤ tokens.length then success (.ofList tokens) tokens
      else failure ⟨["demand-input"], "not enough input"⟩ tokens
  satisfy : ∀ {p : τ → Bool} {tokens r}, M _ (satisfy p) tokens r ↔
    r = single [] p "satisfy?" (fun t => t) tokens
  skip : ∀ {p : τ → Bool} {tokens r}, M _ (skip p) tokens r ↔
    r = single [] p "skip" (fun _ => ()) tokens
  anyToken : ∀ {tokens r}, M _ anyToken tokens r ↔
    r = single [] (fun _ => true) "satisfy?" (fun t => t) tokens
  takeWith : ∀ {n : Int} {p : List τ → Bool} {tokens r},
    M _ (takeWith n p) tokens r ↔ r = block n p tokens
  take : ∀ {n : Int} {tokens r}, M _ (take n) tokens r ↔ r = block n (fun _ => true) tokens
  -- scans and the end of the list
  skipWhile : ∀ {p : τ → Bool} {tokens r}, M _ (skipWhile p) tokens r ↔
    r = success () (tokens.dropWhile p)
  takeWhile : ∀ {p : τ → Bool} {tokens r}, M _ (takeWhile p) tokens r ↔
    r = success (tokens.takeWhile p) (tokens.dropWhile p)
  takeTill : ∀ {p : τ → Bool} {tokens r}, M _ (takeTill p) tokens r ↔
    r = success (tokens.takeWhile (!p ·)) (tokens.dropWhile (!p ·))
  takeWhile1 : ∀ {p : τ → Bool} {tokens r}, M _ (takeWhile1 p) tokens r ↔
    r = run [] p "take-while1" (fun run => run) tokens
  takeRest : ∀ {tokens r}, M _ takeRest tokens r ↔
    r = success (if tokens.isEmpty then [] else [tokens]) []
  endOfInput : ∀ {tokens r}, M _ endOfInput tokens r ↔
    r = if tokens.isEmpty then success () [] else failure ⟨[], "end-of-input"⟩ tokens
  atEnd : ∀ {tokens r}, M _ atEnd tokens r ↔ r = success tokens.isEmpty tokens

structure TextStyle (M : (α : Type) → Parser Γ Char α → List Char → Reading Char α → Prop) :
    Prop where
  anyChar : ∀ {chars r}, M _ Text.anyChar chars r ↔
    r = single [] (fun _ => true) "satisfy?" (fun c => c) chars
  char : ∀ {k chars r}, M _ (Text.char k) chars r ↔
    r = single ["char " ++ k.describe] (fun c => k.contains c) "satisfy?" (fun c => c) chars
  notChar : ∀ {k chars r}, M _ (Text.notChar k) chars r ↔
    r = single ["not char " ++ k.describe] (fun c => !k.contains c) "satisfy?" (fun c => c) chars
  letter : ∀ {chars r}, M _ Text.letter chars r ↔
    r = single ["letter"] Text.isLetter "satisfy?" (fun c => c) chars
  digit : ∀ {chars r}, M _ Text.digit chars r ↔
    r = single ["digit"] Char.isDigit "satisfy?" (fun c => c) chars
  whitespace : ∀ {chars r}, M _ Text.whitespace chars r ↔
    r = single ["whitespace"] Text.isBlank "satisfy?" (fun c => c) chars
  space : ∀ {chars r}, M _ Text.space chars r ↔
    r = single ["char \" \""] (· == ' ') "satisfy?" (fun c => c) chars
  spaces : ∀ {chars r}, M _ Text.spaces chars r ↔
    r = success (chars.takeWhile (· == ' ')) (chars.dropWhile (· == ' '))
  skipSpaces : ∀ {chars r}, M _ Text.skipSpaces chars r ↔
    r = success () (chars.dropWhile (· == ' '))
  skipWhitespaces : ∀ {chars r}, M _ Text.skipWhitespaces chars r ↔
    r = success () (chars.dropWhile Text.isBlank)
  string : ∀ {text chars r}, M _ (Text.string text) chars r ↔
    r = (block text.toList.length (· == text.toList) chars).map fun _ => text
  word : ∀ {chars r}, M _ Text.word chars r ↔
    r = run ["letter"] Text.isLetter "satisfy?" String.ofList chars
  number : ∀ {chars r}, M _ Text.number chars r ↔
    (∃ n rest, Numeral.Longest n chars rest ∧ r = success (.ofDecimal n.text) rest) ∨
      (∀ c ∈ chars.head?, ¬ c.isDigit = true) ∧ r = failure
        (if chars = [] then ⟨["demand-input", "number"], "not enough input"⟩
          else ⟨["number"], "take-while1"⟩) chars
  eol : ∀ {chars r}, M _ Text.eol chars r ↔ r = lineEnd chars

/-! ## The readings obey the clauses -/

section Reads

variable {G : Rules Γ τ}

theorem reads_of_makes {p : Parser Γ τ α} {tokens : List τ} {r r' : Reading τ α}
    (hp : p.Makes G tokens r') : Reads G p tokens r ↔ r = r' := by
  have hahead : (Input.ofList tokens true).ahead [] = tokens := by
    rw [Input.ahead_nil, Input.ofList, Buffer.toList_ofList]
  obtain ⟨s', left, ⟨budget, hhalts⟩, hrest⟩ := hp _ [] (fun _ => ⟨rfl, rfl⟩) hahead
  have hfinish := hhalts budget (Nat.le_refl _)
  rw [Run.along_nil, finish_outcome G budget p rfl, Input.ofList, Buffer.toList_ofList] at hfinish
  obtain ⟨o, ho, hdone⟩ := Option.map_eq_some_iff.mp hfinish
  obtain ⟨r₀, hread, rfl⟩ := Option.map_eq_some_iff.mp ho
  obtain ⟨houtcome, hleft⟩ := Halt.done.inj hdone
  rw [← hleft] at hrest
  rw [← eq_of_outcome_eq houtcome hrest]
  exact reads_of_read_eq budget hread

theorem directStyle_reads (G : Rules Γ τ) : DirectStyle G fun _ p => Reads G p where
  functional := Reads.functional
  pure := reads_pure _
  fail := reads_of_read_eq 1 rfl
  get := reads_of_read_eq 1 rfl
  put := reads_of_read_eq 1 rfl
  demandInput := reads_of_read_eq 1 rfl
  wantInput := reads_of_read_eq 1 rfl
  bind := reads_bind
  alt := reads_alt
  lookAhead := reads_lookAhead.trans exists_reading_and
  label := reads_label.trans exists_reading_and
  loop := reads_loop
  rule := reads_rule
  total := reads_total
  map := reads_map.trans exists_reading_and
  andThen := reads_andThen
  followedBy := reads_followedBy
  between := reads_between
  choice_nil := reads_choice_nil
  choice_singleton := Iff.rfl
  choice_cons := reads_alt
  option := reads_option
  optional := reads_optional
  many := reads_many
  many1 := reads_many1
  skipMany := reads_skipMany
  skipMany1 := reads_skipMany1
  sepBy1 := reads_sepBy1
  sepBy := reads_sepBy
  manyTill := reads_manyTill
  count := reads_count
  ensure := reads_ensure
  satisfy := reads_of_makes (makes_satisfy _ _)
  skip := reads_of_makes (makes_skip _ _)
  anyToken := reads_of_makes (makes_satisfy _ _)
  takeWith := reads_of_makes (makes_takeWith _ _ _)
  take := reads_of_makes (makes_takeWith _ _ _)
  skipWhile := reads_of_makes (makes_skipWhile _ _)
  takeWhile := reads_of_makes (makes_takeWhile _ _)
  takeTill := reads_of_makes (makes_takeWhile _ _)
  takeWhile1 := reads_of_makes (makes_takeWhile1 _ _)
  takeRest := reads_takeRest
  endOfInput := reads_of_makes (makes_endOfInput _)
  atEnd := reads_atEnd

/-- Whatever obeys the clauses has every reading. -/
theorem DirectStyle.of_reads {M : (α : Type) → Parser Γ τ α → List τ → Reading τ α → Prop}
    (h : DirectStyle G M) {p : Parser Γ τ α} {tokens : List τ} {r : Reading τ α}
    (hr : Reads G p tokens r) : M α p tokens r := by
  obtain ⟨budget, hread⟩ := hr
  induction budget generalizing α tokens with
  | zero => cases hread
  | succ budget ih =>
    cases p with
    | pure value => exact h.pure.mpr (Option.some.inj hread).symm
    | fail message => exact h.fail.mpr (Option.some.inj hread).symm
    | get => exact h.get.mpr (Option.some.inj hread).symm
    | put replacement => exact h.put.mpr (Option.some.inj hread).symm
    | demandInput => exact h.demandInput.mpr (Option.some.inj hread).symm
    | wantInput => exact h.wantInput.mpr (Option.some.inj hread).symm
    | bind p f =>
      obtain ⟨r', hr', hread⟩ := Option.bind_eq_some_iff.mp hread
      cases r' with
      | success b rest => exact h.bind.mpr (.inl ⟨b, rest, ih hr', ih hread⟩)
      | failure e rest =>
        exact h.bind.mpr (.inr ⟨e, rest, ih hr', (Option.some.inj hread).symm⟩)
    | alt p q =>
      obtain ⟨r', hr', hread⟩ := Option.bind_eq_some_iff.mp hread
      cases r' with
      | success a rest => exact h.alt.mpr (.inl ⟨a, rest, ih hr', (Option.some.inj hread).symm⟩)
      | failure e rest => exact h.alt.mpr (.inr ⟨e, rest, ih hr', ih hread⟩)
    | lookAhead p =>
      obtain ⟨r', hr', rfl⟩ := Option.map_eq_some_iff.mp hread
      exact h.lookAhead.mpr (exists_reading_and.mp ⟨r', ih hr', rfl⟩)
    | label p name =>
      obtain ⟨r', hr', rfl⟩ := Option.map_eq_some_iff.mp hread
      exact h.label.mpr (exists_reading_and.mp ⟨r', ih hr', rfl⟩)
    | loop start body =>
      obtain ⟨r', hr', hread⟩ := Option.bind_eq_some_iff.mp hread
      cases r' with
      | success turn rest =>
        cases turn with
        | inl next => exact h.loop.mpr (.step (ih hr') (h.loop.mp (ih hread)))
        | inr a => exact h.loop.mpr ((Option.some.inj hread) ▸ .stop (ih hr'))
      | failure e rest => exact h.loop.mpr ((Option.some.inj hread) ▸ .fail (ih hr'))
    | rule i => exact h.rule.mpr (ih hread)
    | total p => exact h.total.mpr (ih hread)

end Reads

/-! ## Characters -/

section Characters

variable {G : Rules Γ Char}

theorem makes_space (chars : List Char) : Text.space.Makes G chars
    (single ["char \" \""] (· == ' ') "satisfy?" (fun c => c) chars) := by
  have hclass : (fun c => (Text.CharClass.exactly " ").contains c) = (· == ' ') := by
    funext c
    rw [Bool.eq_iff_iff, contains_exactly_iff, beq_iff_eq]
    exact ⟨fun h => (List.cons.inj h).1.symm, fun h => congrArg ([·]) h.symm⟩
  rw [← hclass]
  exact makes_char (.exactly " ") chars

/-- Characters of one kind, as many as there are. -/
theorem greedy_reads {p : Parser Γ Char Char} {context : List String} {test : Char → Bool}
    (hp : ∀ chars, p.Makes G chars (single context test "satisfy?" (fun c => c) chars))
    {chars cs rest : List Char} : Greedy (Reads G p) chars cs rest ↔
      cs = chars.takeWhile test ∧ rest = chars.dropWhile test := by
  rw [greedy_single fun chars _ => reads_of_makes (hp chars), List.map_id']

theorem reads_skipMany_run {p : Parser Γ Char Char} {context : List String} {test : Char → Bool}
    (hp : ∀ chars, p.Makes G chars (single context test "satisfy?" (fun c => c) chars))
    {chars : List Char} {r : Reading Char Unit} :
    Reads G p.skipMany chars r ↔ r = success () (chars.dropWhile test) := by
  simp [reads_skipMany, greedy_reads hp, and_assoc]

theorem reads_spaces {chars : List Char} {r : Reading Char (List Char)} :
    Reads G Text.spaces chars r ↔
      r = success (chars.takeWhile (· == ' ')) (chars.dropWhile (· == ' ')) := by
  simp [Text.spaces, reads_many, greedy_reads makes_space, and_assoc]

theorem reads_many1_run {p : Parser Γ Char Char} {context : List String} {test : Char → Bool}
    (hp : ∀ chars, p.Makes G chars (single context test "satisfy?" (fun c => c) chars))
    {chars : List Char} {r : Reading Char (List Char)} :
    Reads G p.many1 chars r ↔ r = run context test "satisfy?" (fun cs => cs) chars := by
  have hsingle : ∀ {r}, Reads G p chars r ↔
      r = single context test "satisfy?" (fun c => c) chars := reads_of_makes (hp chars)
  rw [reads_many1]
  simp only [hsingle, greedy_reads hp]
  cases chars with
  | nil => simp [single, run, and_assoc]
  | cons c rest => by_cases hc : test c = true <;> simp [single, run, hc, and_assoc]

theorem reads_word {chars : List Char} {r : Reading Char String} :
    Reads G Text.word chars r ↔
      r = run ["letter"] Text.isLetter "satisfy?" String.ofList chars := by
  have hletter : ∀ chars, Text.letter.Makes G chars
      (single ["letter"] Text.isLetter "satisfy?" (fun c => c) chars) := makes_labelled _ _
  rw [Text.word, reads_map]
  simp only [reads_many1_run hletter, exists_eq_left, join_toString]
  cases chars with
  | nil => rfl
  | cons c rest => by_cases hc : Text.isLetter c = true <;> simp [run, hc, Reading.map]

theorem reads_number {chars : List Char} {r : Reading Char Binary64} :
    Reads G Text.number chars r ↔
      (∃ n rest, Numeral.Longest n chars rest ∧ r = success (.ofDecimal n.text) rest) ∨
        (∀ c ∈ chars.head?, ¬ c.isDigit = true) ∧ r = failure
          (if chars = [] then ⟨["demand-input", "number"], "not enough input"⟩
            else ⟨["number"], "take-while1"⟩) chars := by
  by_cases hnone : ∀ c ∈ chars.head?, ¬ c.isDigit = true
  · rw [reads_of_makes (makes_number_of_neg G hnone)]
    refine ⟨fun h => .inr ⟨hnone, h⟩, ?_⟩
    rintro (⟨n, rest, hlongest, -⟩ | ⟨-, h⟩)
    · obtain ⟨c, hhead, hc⟩ := hlongest.head_isDigit
      exact absurd hc (hnone c hhead)
    · exact h
  · obtain ⟨c, hhead, hc⟩ : ∃ c ∈ chars.head?, c.isDigit = true := by simpa using hnone
    obtain ⟨others, rfl⟩ := List.head?_eq_some_iff.mp hhead
    obtain ⟨n, rest, hends, hsplit⟩ := Numeral.exists_ends hc others
    have hmakes := makes_number G hends
    rw [← hsplit] at hmakes
    rw [reads_of_makes hmakes]
    constructor
    · rintro rfl
      exact .inl ⟨n, rest, hsplit ▸ hends.longest, rfl⟩
    · rintro (⟨n', rest', hlongest, rfl⟩ | ⟨h, -⟩)
      · obtain ⟨htext, rfl⟩ := hlongest.functional (hsplit ▸ hends.longest)
        rw [htext]
      · exact absurd h hnone

theorem block_two (p : List Char → Bool) (c d : Char) (rest : List Char) :
    block 2 p (c :: d :: rest) = if p [c, d] then success [c, d] rest
      else failure ⟨[], "take-with"⟩ (c :: d :: rest) := by
  have hle : (2 : Int) ≤ (c :: d :: rest).length := by
    rw [List.length_cons, List.length_cons]
    omega
  rw [block, if_pos hle]
  rfl

/-- A line feed decides at once; where there is none, two characters do. -/
theorem makes_eol (chars : List Char) : Text.eol.Makes G chars (lineEnd chars) := by
  have hreturn : ∀ {chars r}, chars.head? ≠ some '\n' →
      ((block 2 (· == ['\r', '\n']) chars).map fun _ => ()) = r → Text.eol.Makes G chars r := by
    intro chars r h hr
    obtain ⟨e, hchar⟩ := exists_char_failure (G := G) "\n" rfl h
    have hstring := makes_string (G := G) "\r\n" chars
    have hboth : ((Text.string "\r\n").andThen (pure ())).Makes G chars r := by
      subst hr
      change (Text.string "\r\n").Makes G chars
        ((block 2 (· == ['\r', '\n']) chars).map fun _ => "\r\n") at hstring
      cases hblock : block 2 (· == ['\r', '\n']) chars with
      | success run rest =>
        rw [hblock] at hstring
        exact hstring.bind (makes_pure () rest)
      | failure e rest =>
        rw [hblock] at hstring
        exact hstring.bind_of_failure _
    exact (hchar.bind_of_failure _).alt_of_failure hboth
  fun_cases lineEnd chars with
  | case1 rest =>
    exact ((makes_char (.exactly "\n") ('\n' :: rest)).bind (makes_pure () rest)).alt _
  | case2 rest => exact hreturn (by simp) (congrArg _ (block_two _ '\r' '\n' rest))
  | case3 => exact hreturn nofun rfl
  | case4 c h => exact hreturn (by simpa using h) rfl
  | case5 c d rest h h' =>
    refine hreturn (by simpa using h) ?_
    rw [block_two, if_neg]
    · rfl
    · simpa using h'

end Characters

theorem textStyle_reads (G : Rules Γ Char) : TextStyle fun _ p => Reads G p where
  anyChar := reads_of_makes (makes_satisfy _ _)
  char := reads_of_makes (makes_char _ _)
  notChar := reads_of_makes (makes_labelled _ _ _)
  letter := reads_of_makes (makes_labelled _ _ _)
  digit := reads_of_makes (makes_labelled _ _ _)
  whitespace := reads_of_makes (makes_labelled _ _ _)
  space := reads_of_makes (makes_space _)
  spaces := reads_spaces
  skipSpaces := reads_skipMany_run makes_space
  skipWhitespaces := reads_skipMany_run (makes_labelled _ _)
  string := reads_of_makes (makes_string _ _)
  word := reads_word
  number := reads_number
  eol := reads_of_makes (makes_eol _)

/-- **Adequacy.** Parsing complete input comes to a verdict, with a budget that is large enough,
exactly where the direct semantics has a reading, and the verdict is that reading. The direct
semantics obeys the clauses for every parser of the library, those over characters included, and no
relation that obeys them has fewer readings. -/
theorem parseAll_adequate :
    (∀ G : Rules Γ τ, (DirectStyle G fun _ p => Reads G p) ∧
      (∀ M, DirectStyle G M → ∀ {α : Type} {p : Parser Γ τ α} {tokens r},
        Reads G p tokens r → M α p tokens r) ∧
      ∀ {α : Type} (p : Parser Γ τ α) (tokens : List τ) (v : Verdict τ α),
        (∃ budget, p.parseAll G budget tokens = some v) ↔
          ∃ r, Reads G p tokens r ∧ v = r.verdict) ∧
    ∀ G : Rules Γ Char, TextStyle fun _ p => Reads G p := by
  refine ⟨fun G => ⟨directStyle_reads G, fun M h _ _ _ _ => h.of_reads, ?_⟩, textStyle_reads⟩
  intro α p tokens v
  simp only [parseAll_eq_read, Option.map_eq_some_iff]
  constructor
  · rintro ⟨budget, r, h, rfl⟩
    exact ⟨r, ⟨budget, h⟩, rfl⟩
  · rintro ⟨r, ⟨budget, h⟩, rfl⟩
    exact ⟨budget, r, h, rfl⟩

end Parser

end Piecemeal
