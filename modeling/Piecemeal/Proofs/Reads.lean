import Piecemeal.Parser.Repeat
import Piecemeal.Parser.Scan
import Piecemeal.Parser.Token
import Piecemeal.Proofs.Adequacy

/-!
# Reading, whatever the budget

`Reads G p tokens r` leaves the budget of `Parser.read` out: with some budget, `p` makes `r` of
`tokens`. There is at most one such reading (`Reads.functional`), and what it is can be said for
each way of building a parser in terms of the readings of the parts. For the repeating parsers
these are inductive relations over the readings `R` of the repeated part:

* `Greedy R`: as many elements as there are, the attempt that fails being given back;
* `Until E R`: elements up to the first place where the terminator is found;
* `Times R n`: `n` elements, one after the other.

What the parsers of tokens make of a list can be computed: `single`, `block` and `run`.
-/

namespace Piecemeal

variable {ι : Type} {Γ : ι → Type} {τ α β σ : Type}

namespace Reading

def map (f : α → β) : Reading τ α → Reading τ β
  | success a rest => success (f a) rest
  | failure e rest => failure e rest

theorem map_eq_success {f : α → β} {r : Reading τ α} {b : β} {rest : List τ}
    (h : success b rest = r.map f) : ∃ a, r = success a rest ∧ b = f a := by
  cases r with
  | success a rest' => cases h; exact ⟨a, rfl, rfl⟩
  | failure => cases h

theorem map_eq_failure {f : α → β} {r : Reading τ α} {e : Failure} {rest : List τ}
    (h : failure e rest = r.map f) : r = failure e rest := by
  cases r with
  | success => cases h
  | failure e' rest' => cases h; rfl

theorem map_cons_addAll (found : Gather α) (a : α) (r : Reading τ (List α)) :
    (r.map (a :: ·)).map found.addAll = r.map (found.add a).addAll := by
  cases r <;> rfl

/-- A reading is a success or a failure. -/
theorem exists_reading_and {P : Reading τ α → Prop} {f : Reading τ α → β} {b : β} :
    (∃ r, P r ∧ b = f r) ↔ (∃ a rest, P (success a rest) ∧ b = f (success a rest)) ∨
      ∃ e rest, P (failure e rest) ∧ b = f (failure e rest) := by
  constructor
  · rintro ⟨r, h, rfl⟩
    cases r with
    | success a rest => exact .inl ⟨a, rest, h, rfl⟩
    | failure e rest => exact .inr ⟨e, rest, h, rfl⟩
  · rintro (⟨a, rest, h, rfl⟩ | ⟨e, rest, h, rfl⟩)
    · exact ⟨_, h, rfl⟩
    · exact ⟨_, h, rfl⟩

theorem map_addAll_empty (r : Reading τ (List α)) :
    (r.map (Gather.addAll .empty)).map Gather.toList = r := by
  cases r with
  | success as rest => exact congrArg (success · rest) (Gather.toList_addAll .empty as)
  | failure e rest => rfl

/-! ## Repetition -/

/-- `Greedy R tokens as rest`: the elements `as` are read one after the other, and then there is no
further one. What the last attempt consumed is given back. -/
inductive Greedy (R : List τ → Reading τ α → Prop) : List τ → List α → List τ → Prop
  | stop {tokens : List τ} {e : Failure} {left : List τ} (h : R tokens (failure e left)) :
      Greedy R tokens [] tokens
  | next {tokens middle rest : List τ} {a : α} {as : List α} (h : R tokens (success a middle))
      (more : Greedy R middle as rest) : Greedy R tokens (a :: as) rest

/-- The terminator `E` is tried first at every place, and where it is not found, one element. -/
inductive Until (E : List τ → Reading τ β → Prop) (R : List τ → Reading τ α → Prop) :
    List τ → Reading τ (List α) → Prop
  | stop {tokens rest : List τ} {b : β} (h : E tokens (success b rest)) :
      Until E R tokens (success [] rest)
  | fail {tokens rest left : List τ} {e e' : Failure} (h : E tokens (failure e' left))
      (h' : R tokens (failure e rest)) : Until E R tokens (failure e rest)
  | next {tokens middle left : List τ} {e : Failure} {a : α} {r : Reading τ (List α)}
      (h : E tokens (failure e left)) (h' : R tokens (success a middle))
      (more : Until E R middle r) : Until E R tokens (r.map (a :: ·))

/-- Exactly `n` elements. -/
inductive Times (R : List τ → Reading τ α → Prop) : Nat → List τ → Reading τ (List α) → Prop
  | zero (tokens : List τ) : Times R 0 tokens (success [] tokens)
  | fail {n : Nat} {tokens rest : List τ} {e : Failure} (h : R tokens (failure e rest)) :
      Times R (n + 1) tokens (failure e rest)
  | next {n : Nat} {tokens middle : List τ} {a : α} {r : Reading τ (List α)}
      (h : R tokens (success a middle)) (more : Times R n middle r) :
      Times R (n + 1) tokens (r.map (a :: ·))

/-- One reading after another, the value of the second being kept. -/
def Both (S : List τ → Reading τ β → Prop) (R : List τ → Reading τ α → Prop) (tokens : List τ)
    (r : Reading τ α) : Prop :=
  (∃ b middle, S tokens (success b middle) ∧ R middle r) ∨
    ∃ e rest, S tokens (failure e rest) ∧ r = failure e rest

/-- One reading after another, the value of the first being kept. -/
def First (R : List τ → Reading τ α → Prop) (S : List τ → Reading τ β → Prop) (tokens : List τ)
    (r : Reading τ α) : Prop :=
  (∃ a middle, R tokens (success a middle) ∧
    ((∃ b rest, S middle (success b rest) ∧ r = success a rest) ∨
      ∃ e rest, S middle (failure e rest) ∧ r = failure e rest)) ∨
    ∃ e rest, R tokens (failure e rest) ∧ r = failure e rest

/-- The body `B` takes one state to the next until it gives a value. -/
inductive Iterates (B : σ → List τ → Reading τ (σ ⊕ α) → Prop) : σ → List τ → Reading τ α → Prop
  | step {state next : σ} {tokens middle : List τ} {r : Reading τ α}
      (h : B state tokens (success (.inl next) middle)) (more : Iterates B next middle r) :
      Iterates B state tokens r
  | stop {state : σ} {tokens rest : List τ} {a : α} (h : B state tokens (success (.inr a) rest)) :
      Iterates B state tokens (success a rest)
  | fail {state : σ} {tokens rest : List τ} {e : Failure} (h : B state tokens (failure e rest)) :
      Iterates B state tokens (failure e rest)

/-! ## Tokens -/

/-- One token that satisfies `p`. The labels in `context` stand around the failures. -/
def single (context : List String) (p : τ → Bool) (message : String) (value : τ → α) :
    List τ → Reading τ α
  | [] => failure ⟨"demand-input" :: context, "not enough input"⟩ []
  | t :: rest =>
    if p t then success (value t) rest else failure ⟨context, message⟩ (t :: rest)

/-- A block of `n` tokens, if `p` accepts it as a whole. -/
def block (n : Int) (p : List τ → Bool) (tokens : List τ) : Reading τ (List τ) :=
  if n ≤ tokens.length then
    if p (tokens.take n.toNat) then success (tokens.take n.toNat) (tokens.drop n.toNat)
    else failure ⟨[], "take-with"⟩ tokens
  else failure ⟨["demand-input"], "not enough input"⟩ tokens

/-- The longest run of tokens that satisfy `p`, which must not be empty. -/
def run (context : List String) (p : τ → Bool) (message : String) (value : List τ → α) :
    List τ → Reading τ α
  | [] => failure ⟨"demand-input" :: context, "not enough input"⟩ []
  | t :: rest =>
    if p t then success (value ((t :: rest).takeWhile p)) ((t :: rest).dropWhile p)
    else failure ⟨context, message⟩ (t :: rest)

theorem single_within (context : List String) (p : τ → Bool) (message : String) (value : τ → α)
    (name : String) (tokens : List τ) :
    (single context p message value tokens).within name =
      single (context ++ [name]) p message value tokens := by
  cases tokens with
  | nil => rfl
  | cons t rest =>
    rw [single, single]
    split <;> rfl

/-- As many single tokens as there are form a run. -/
theorem greedy_single {R : List τ → Reading τ α → Prop} {context : List String} {p : τ → Bool}
    {message : String} {value : τ → α}
    (hR : ∀ tokens r, R tokens r ↔ r = single context p message value tokens)
    {tokens rest : List τ} {as : List α} :
    Greedy R tokens as rest ↔
      as = (tokens.takeWhile p).map value ∧ rest = tokens.dropWhile p := by
  constructor
  · intro h
    induction h with
    | @stop tokens e left h =>
      rw [hR] at h
      cases tokens with
      | nil => exact ⟨rfl, rfl⟩
      | cons t rest =>
        rw [single] at h
        split at h
        · cases h
        · next ht =>
          rw [List.takeWhile_cons_of_neg ht, List.dropWhile_cons_of_neg ht]
          exact ⟨rfl, rfl⟩
    | @next tokens middle rest a as h _ ih =>
      rw [hR] at h
      cases tokens with
      | nil => cases h
      | cons t rest =>
        rw [single] at h
        split at h
        · next ht =>
          cases h
          obtain ⟨rfl, rfl⟩ := ih
          rw [List.takeWhile_cons_of_pos ht, List.dropWhile_cons_of_pos ht]
          exact ⟨rfl, rfl⟩
        · cases h
  · rintro ⟨rfl, rfl⟩
    induction tokens with
    | nil => exact .stop ((hR _ _).mpr rfl)
    | cons t rest ih =>
      by_cases ht : p t = true
      · rw [List.takeWhile_cons_of_pos ht, List.dropWhile_cons_of_pos ht]
        exact .next ((hR _ _).mpr (if_pos ht).symm) ih
      · rw [List.takeWhile_cons_of_neg ht, List.dropWhile_cons_of_neg ht]
        exact .stop ((hR _ _).mpr (if_neg ht).symm)

end Reading

namespace Parser

open Reading

def Reads (G : Rules Γ τ) (p : Parser Γ τ α) (tokens : List τ) (r : Reading τ α) : Prop :=
  ∃ budget, p.read G budget tokens = some r

theorem Reads.functional {G : Rules Γ τ} {p : Parser Γ τ α} {tokens : List τ} {r r' : Reading τ α}
    (h : Reads G p tokens r) (h' : Reads G p tokens r') : r = r' := by
  obtain ⟨b, h⟩ := h
  obtain ⟨b', h'⟩ := h'
  have hmax := read_mono (Nat.le_max_left b b') h
  rw [read_mono (Nat.le_max_right b b') h'] at hmax
  exact (Option.some.inj hmax).symm

section Clauses

variable {G : Rules Γ τ} {tokens : List τ}

theorem reads_of_read_eq {p : Parser Γ τ α} {r₀ r : Reading τ α} (budget : Nat)
    (h : p.read G budget tokens = some r₀) : Reads G p tokens r ↔ r = r₀ := by
  refine ⟨fun hr => hr.functional ⟨budget, h⟩, fun hr => ?_⟩
  subst hr
  exact ⟨budget, h⟩

theorem reads_pure (a : α) {r : Reading τ α} :
    Reads G (pure a) tokens r ↔ r = success a tokens := reads_of_read_eq 1 rfl

theorem reads_bind {p : Parser Γ τ β} {f : β → Parser Γ τ α} {r : Reading τ α} :
    Reads G (p.bind f) tokens r ↔
      (∃ b rest, Reads G p tokens (success b rest) ∧ Reads G (f b) rest r) ∨
        ∃ e rest, Reads G p tokens (failure e rest) ∧ r = failure e rest := by
  constructor
  · rintro ⟨_ | budget, h⟩
    · cases h
    · rw [read] at h
      obtain ⟨r', hr', h⟩ := Option.bind_eq_some_iff.mp h
      cases r' with
      | success b rest => exact .inl ⟨b, rest, ⟨budget, hr'⟩, ⟨budget, h⟩⟩
      | failure e rest => exact .inr ⟨e, rest, ⟨budget, hr'⟩, (Option.some.inj h).symm⟩
  · rintro (⟨b, rest, ⟨n, hp⟩, m, hf⟩ | ⟨e, rest, ⟨n, hp⟩, rfl⟩)
    · refine ⟨max n m + 1, ?_⟩
      rw [read, read_mono (Nat.le_max_left n m) hp]
      exact read_mono (Nat.le_max_right n m) hf
    · refine ⟨n + 1, ?_⟩
      rw [read, hp]
      rfl

theorem reads_alt {p q : Parser Γ τ α} {r : Reading τ α} :
    Reads G (p.alt q) tokens r ↔
      (∃ a rest, Reads G p tokens (success a rest) ∧ r = success a rest) ∨
        ∃ e rest, Reads G p tokens (failure e rest) ∧ Reads G q tokens r := by
  constructor
  · rintro ⟨_ | budget, h⟩
    · cases h
    · rw [read] at h
      obtain ⟨r', hr', h⟩ := Option.bind_eq_some_iff.mp h
      cases r' with
      | success a rest => exact .inl ⟨a, rest, ⟨budget, hr'⟩, (Option.some.inj h).symm⟩
      | failure e rest => exact .inr ⟨e, rest, ⟨budget, hr'⟩, ⟨budget, h⟩⟩
  · rintro (⟨a, rest, ⟨n, hp⟩, rfl⟩ | ⟨e, rest, ⟨n, hp⟩, m, hq⟩)
    · refine ⟨n + 1, ?_⟩
      rw [read, hp]
      rfl
    · refine ⟨max n m + 1, ?_⟩
      rw [read, read_mono (Nat.le_max_left n m) hp]
      exact read_mono (Nat.le_max_right n m) hq

theorem reads_lookAhead {p : Parser Γ τ α} {r : Reading τ α} :
    Reads G p.lookAhead tokens r ↔ ∃ r', Reads G p tokens r' ∧ r = r'.returning tokens := by
  constructor
  · rintro ⟨_ | budget, h⟩
    · cases h
    · rw [read] at h
      obtain ⟨r', hr', rfl⟩ := Option.map_eq_some_iff.mp h
      exact ⟨r', ⟨budget, hr'⟩, rfl⟩
  · rintro ⟨r', ⟨n, hp⟩, rfl⟩
    exact ⟨n + 1, by rw [read, hp]; rfl⟩

theorem reads_label {p : Parser Γ τ α} {name : String} {r : Reading τ α} :
    Reads G (p.label name) tokens r ↔ ∃ r', Reads G p tokens r' ∧ r = r'.within name := by
  constructor
  · rintro ⟨_ | budget, h⟩
    · cases h
    · rw [read] at h
      obtain ⟨r', hr', rfl⟩ := Option.map_eq_some_iff.mp h
      exact ⟨r', ⟨budget, hr'⟩, rfl⟩
  · rintro ⟨r', ⟨n, hp⟩, rfl⟩
    exact ⟨n + 1, by rw [read, hp]; rfl⟩

theorem reads_rule {i : ι} {r : Reading τ (Γ i)} :
    Reads G (.rule i) tokens r ↔ Reads G (G i) tokens r := by
  constructor
  · rintro ⟨_ | budget, h⟩
    · cases h
    · exact ⟨budget, h⟩
  · rintro ⟨n, h⟩
    exact ⟨n + 1, h⟩

theorem reads_total {p : Parser Γ τ α} {r : Reading τ α} :
    Reads G p.total tokens r ↔ Reads G p tokens r := by
  constructor
  · rintro ⟨_ | budget, h⟩
    · cases h
    · exact ⟨budget, h⟩
  · rintro ⟨n, h⟩
    exact ⟨n + 1, h⟩

theorem reads_loop {state : σ} {body : σ → Parser Γ τ (σ ⊕ α)} {r : Reading τ α} :
    Reads G (.loop state body) tokens r ↔
      Iterates (fun state => Reads G (body state)) state tokens r := by
  constructor
  · rintro ⟨budget, h⟩
    induction budget generalizing state tokens with
    | zero => cases h
    | succ budget ih =>
      rw [read] at h
      obtain ⟨r', hr', h⟩ := Option.bind_eq_some_iff.mp h
      cases r' with
      | success turn rest =>
        cases turn with
        | inl next => exact .step ⟨budget, hr'⟩ (ih h)
        | inr a => exact (Option.some.inj h) ▸ .stop ⟨budget, hr'⟩
      | failure e rest => exact (Option.some.inj h) ▸ .fail ⟨budget, hr'⟩
  · intro h
    induction h with
    | step h _ ih =>
      obtain ⟨n, hbody⟩ := h
      obtain ⟨m, hloop⟩ := ih
      refine ⟨max n m + 1, ?_⟩
      rw [read, read_mono (Nat.le_max_left n m) hbody]
      exact read_mono (Nat.le_max_right n m) hloop
    | stop h =>
      obtain ⟨n, hbody⟩ := h
      exact ⟨n + 1, by rw [read, hbody]; rfl⟩
    | fail h =>
      obtain ⟨n, hbody⟩ := h
      exact ⟨n + 1, by rw [read, hbody]; rfl⟩

theorem reads_map {p : Parser Γ τ α} {f : α → β} {r : Reading τ β} :
    Reads G (p.map f) tokens r ↔ ∃ r', Reads G p tokens r' ∧ r = r'.map f := by
  rw [Parser.map, reads_bind]
  constructor
  · rintro (⟨a, rest, hp, hpure⟩ | ⟨e, rest, hp, rfl⟩)
    · exact ⟨_, hp, (reads_pure _).mp hpure⟩
    · exact ⟨_, hp, rfl⟩
  · rintro ⟨r', hp, rfl⟩
    cases r' with
    | success a rest => exact .inl ⟨a, rest, hp, (reads_pure _).mpr rfl⟩
    | failure e rest => exact .inr ⟨e, rest, hp, rfl⟩

theorem reads_andThen {p : Parser Γ τ β} {q : Parser Γ τ α} {r : Reading τ α} :
    Reads G (p.andThen q) tokens r ↔ Both (Reads G p) (Reads G q) tokens r := reads_bind

theorem reads_followedBy {p : Parser Γ τ α} {q : Parser Γ τ β} {r : Reading τ α} :
    Reads G (p.followedBy q) tokens r ↔ First (Reads G p) (Reads G q) tokens r := by
  refine Iff.trans reads_bind (or_congr_left ?_)
  simp only [reads_map, exists_reading_and]
  rfl

theorem reads_between {γ : Type} {opening : Parser Γ τ β} {closing : Parser Γ τ γ}
    {p : Parser Γ τ α} {r : Reading τ α} : Reads G (between opening closing p) tokens r ↔
      Both (Reads G opening) (First (Reads G p) (Reads G closing)) tokens r := by
  have hfirst : First (Reads G p) (Reads G closing) = Reads G (p.followedBy closing) := by
    funext tokens r
    exact propext reads_followedBy.symm
  rw [hfirst]
  exact reads_andThen

theorem reads_choice_nil {r : Reading τ α} :
    Reads G (choice []) tokens r ↔ r = failure ⟨[], "choice"⟩ tokens := reads_of_read_eq 1 rfl

theorem reads_option {p : Parser Γ τ α} {fallback : α} {r : Reading τ α} :
    Reads G (p.option fallback) tokens r ↔
      (∃ a rest, Reads G p tokens (success a rest) ∧ r = success a rest) ∨
        (∃ e rest, Reads G p tokens (failure e rest)) ∧ r = success fallback tokens := by
  rw [Parser.option, reads_alt]
  simp only [reads_pure, exists_and_right]

theorem reads_optional {p : Parser Γ τ α} {r : Reading τ (Option α)} :
    Reads G p.optional tokens r ↔
      (∃ a rest, Reads G p tokens (success a rest) ∧ r = success (some a) rest) ∨
        (∃ e rest, Reads G p tokens (failure e rest)) ∧ r = success none tokens := by
  rw [Parser.optional, reads_option]
  simp only [reads_map]
  constructor
  · rintro (⟨_, rest, ⟨r', hp, hr'⟩, rfl⟩ | ⟨⟨e, rest, r', hp, hr'⟩, rfl⟩)
    · obtain ⟨a, rfl, rfl⟩ := map_eq_success hr'
      exact .inl ⟨a, rest, hp, rfl⟩
    · cases map_eq_failure hr'
      exact .inr ⟨⟨e, rest, hp⟩, rfl⟩
  · rintro (⟨a, rest, hp, rfl⟩ | ⟨⟨e, rest, hp⟩, rfl⟩)
    · exact .inl ⟨some a, rest, ⟨_, hp, rfl⟩, rfl⟩
    · exact .inr ⟨⟨e, rest, _, hp, rfl⟩, rfl⟩

/-! ## Repeating parsers -/

theorem reads_attempt {p : Parser Γ τ α} {found : α → β} {missing : β} {r : Reading τ β} :
    Reads G (p.optional.bind fun
        | some a => pure (found a)
        | none => pure missing) tokens r ↔
      (∃ a rest, Reads G p tokens (success a rest) ∧ r = success (found a) rest) ∨
        (∃ e rest, Reads G p tokens (failure e rest)) ∧ r = success missing tokens := by
  simp only [reads_bind, reads_optional]
  constructor
  · rintro (⟨_, _, ⟨a, rest, hp, he⟩ | ⟨hp, he⟩, hturn⟩ | ⟨_, _, ⟨_, _, _, he⟩ | ⟨_, he⟩, _⟩)
    · cases he
      exact .inl ⟨a, _, hp, (reads_pure _).mp hturn⟩
    · cases he
      exact .inr ⟨hp, (reads_pure _).mp hturn⟩
    · cases he
    · cases he
  · rintro (⟨a, rest, hp, rfl⟩ | ⟨hp, rfl⟩)
    · exact .inl ⟨some a, rest, .inl ⟨a, rest, hp, rfl⟩, (reads_pure _).mpr rfl⟩
    · exact .inl ⟨none, tokens, .inr ⟨hp, rfl⟩, (reads_pure _).mpr rfl⟩

/-- Both loops that repeat a parser until it fails collect in this way. -/
theorem reads_collect {p : Parser Γ τ α} {add : σ → α → σ} {start : σ} {r : Reading τ σ} :
    Reads G (.loop start fun state => p.optional.bind fun
        | some a => pure (.inl (add state a))
        | none => pure (.inr state)) tokens r ↔
      ∃ as rest, Greedy (Reads G p) tokens as rest ∧ r = success (as.foldl add start) rest := by
  rw [reads_loop]
  constructor
  · intro h
    induction h with
    | step h _ ih =>
      obtain ⟨as, rest, hmore, rfl⟩ := ih
      rcases reads_attempt.mp h with ⟨a, middle, hp, he⟩ | ⟨_, he⟩
      · cases he
        exact ⟨a :: as, rest, .next hp hmore, rfl⟩
      · cases he
    | stop h =>
      rcases reads_attempt.mp h with ⟨a, middle, hp, he⟩ | ⟨⟨e, left, hp⟩, he⟩
      · cases he
      · cases he
        exact ⟨[], _, .stop hp, rfl⟩
    | fail h =>
      rcases reads_attempt.mp h with ⟨a, middle, hp, he⟩ | ⟨_, he⟩
      · cases he
      · cases he
  · rintro ⟨as, rest, h, rfl⟩
    induction h generalizing start with
    | stop h => exact .stop (reads_attempt.mpr (.inr ⟨⟨_, _, h⟩, rfl⟩))
    | next h _ ih => exact .step (reads_attempt.mpr (.inl ⟨_, _, h, rfl⟩)) ih

theorem reads_many {p : Parser Γ τ α} {r : Reading τ (List α)} :
    Reads G p.many tokens r ↔
      ∃ as rest, Greedy (Reads G p) tokens as rest ∧ r = success as rest := by
  rw [Parser.many, reads_map]
  constructor
  · rintro ⟨r', h, rfl⟩
    obtain ⟨as, rest, hgreedy, rfl⟩ := reads_collect.mp h
    exact ⟨as, rest, hgreedy, map_addAll_empty (success as rest)⟩
  · rintro ⟨as, rest, hgreedy, rfl⟩
    exact ⟨_, reads_collect.mpr ⟨as, rest, hgreedy, rfl⟩, (map_addAll_empty (success as rest)).symm⟩

theorem reads_skipMany {p : Parser Γ τ α} {r : Reading τ Unit} :
    Reads G p.skipMany tokens r ↔
      ∃ as rest, Greedy (Reads G p) tokens as rest ∧ r = success () rest :=
  reads_collect

/-- An element of one kind, and then as many of another as there are. -/
theorem reads_bind_many {p q : Parser Γ τ α} {r : Reading τ (List α)} :
    Reads G (p.bind fun a => q.many.map (a :: ·)) tokens r ↔
      (∃ e rest, Reads G p tokens (failure e rest) ∧ r = failure e rest) ∨
        ∃ a middle as rest, Reads G p tokens (success a middle) ∧
          Greedy (Reads G q) middle as rest ∧ r = success (a :: as) rest := by
  simp only [reads_bind, reads_map, reads_many]
  constructor
  · rintro (⟨a, middle, hp, r', ⟨as, rest, hgreedy, rfl⟩, rfl⟩ | h)
    · exact .inr ⟨a, middle, as, rest, hp, hgreedy, rfl⟩
    · exact .inl h
  · rintro (h | ⟨a, middle, as, rest, hp, hgreedy, rfl⟩)
    · exact .inr h
    · exact .inl ⟨a, middle, hp, _, ⟨as, rest, hgreedy, rfl⟩, rfl⟩

theorem reads_many1 {p : Parser Γ τ α} {r : Reading τ (List α)} :
    Reads G p.many1 tokens r ↔
      (∃ e rest, Reads G p tokens (failure e rest) ∧ r = failure e rest) ∨
        ∃ a middle as rest, Reads G p tokens (success a middle) ∧
          Greedy (Reads G p) middle as rest ∧ r = success (a :: as) rest :=
  reads_bind_many

theorem reads_skipMany1 {p : Parser Γ τ α} {r : Reading τ Unit} :
    Reads G p.skipMany1 tokens r ↔
      (∃ e rest, Reads G p tokens (failure e rest) ∧ r = failure e rest) ∨
        ∃ a middle as rest, Reads G p tokens (success a middle) ∧
          Greedy (Reads G p) middle as rest ∧ r = success () rest := by
  refine Iff.trans reads_bind ?_
  simp only [reads_skipMany]
  constructor
  · rintro (⟨a, middle, hp, as, rest, hgreedy, rfl⟩ | h)
    · exact .inr ⟨a, middle, as, rest, hp, hgreedy, rfl⟩
    · exact .inl h
  · rintro (h | ⟨a, middle, as, rest, hp, hgreedy, rfl⟩)
    · exact .inr h
    · exact .inl ⟨a, middle, hp, as, rest, hgreedy, rfl⟩

theorem reads_sepBy1 {p : Parser Γ τ α} {q : Parser Γ τ β} {r : Reading τ (List α)} :
    Reads G (p.sepBy1 q) tokens r ↔
      (∃ e rest, Reads G p tokens (failure e rest) ∧ r = failure e rest) ∨
        ∃ a middle as rest, Reads G p tokens (success a middle) ∧
          Greedy (Both (Reads G q) (Reads G p)) middle as rest ∧ r = success (a :: as) rest := by
  have hpair : Both (Reads G q) (Reads G p) = Reads G (q.andThen p) := by
    funext tokens r
    exact propext reads_andThen.symm
  rw [hpair]
  exact reads_bind_many

theorem reads_sepBy {p : Parser Γ τ α} {q : Parser Γ τ β} {r : Reading τ (List α)} :
    Reads G (p.sepBy q) tokens r ↔
      ((∃ e rest, Reads G p tokens (failure e rest)) ∧ r = success [] tokens) ∨
        ∃ a middle as rest, Reads G p tokens (success a middle) ∧
          Greedy (Both (Reads G q) (Reads G p)) middle as rest ∧ r = success (a :: as) rest := by
  rw [Parser.sepBy, reads_option]
  simp only [reads_sepBy1]
  constructor
  · rintro (⟨_, _, ⟨_, _, _, ⟨⟩⟩ | ⟨a, middle, as, _, hp, hgreedy, ⟨⟩⟩, rfl⟩ |
      ⟨⟨_, _, ⟨_, _, hp, ⟨⟩⟩ | ⟨_, _, _, _, _, _, ⟨⟩⟩⟩, rfl⟩)
    · exact .inr ⟨a, middle, as, _, hp, hgreedy, rfl⟩
    · exact .inl ⟨⟨_, _, hp⟩, rfl⟩
  · rintro (⟨⟨e, rest, hp⟩, rfl⟩ | ⟨a, middle, as, rest, hp, hgreedy, rfl⟩)
    · exact .inr ⟨⟨e, rest, .inl ⟨e, rest, hp, rfl⟩⟩, rfl⟩
    · exact .inl ⟨_, rest, .inr ⟨a, middle, as, rest, hp, hgreedy, rfl⟩, rfl⟩

theorem reads_tillTurn {p : Parser Γ τ α} {q : Parser Γ τ β} {next : α → σ} {last : σ}
    {r : Reading τ (σ ⊕ σ)} :
    Reads G ((q.map fun _ => .inr last).alt (p.map fun a => .inl (next a))) tokens r ↔
      (∃ b rest, Reads G q tokens (success b rest) ∧ r = success (.inr last) rest) ∨
        ∃ e left, Reads G q tokens (failure e left) ∧
          ((∃ a middle, Reads G p tokens (success a middle) ∧ r = success (.inl (next a)) middle) ∨
            ∃ e rest, Reads G p tokens (failure e rest) ∧ r = failure e rest) := by
  simp only [reads_alt, reads_map]
  constructor
  · rintro (⟨_, rest, ⟨r', hq, hr'⟩, rfl⟩ | ⟨e, left, ⟨r', hq, hr'⟩, r'', hp, rfl⟩)
    · obtain ⟨b, rfl, rfl⟩ := map_eq_success hr'
      exact .inl ⟨b, rest, hq, rfl⟩
    · cases map_eq_failure hr'
      refine .inr ⟨e, left, hq, ?_⟩
      cases r'' with
      | success a middle => exact .inl ⟨a, middle, hp, rfl⟩
      | failure e' rest => exact .inr ⟨e', rest, hp, rfl⟩
  · rintro (⟨b, rest, hq, rfl⟩ | ⟨e, left, hq, ⟨a, middle, hp, rfl⟩ | ⟨e', rest, hp, rfl⟩⟩)
    · exact .inl ⟨_, rest, ⟨_, hq, rfl⟩, rfl⟩
    · exact .inr ⟨e, left, ⟨_, hq, rfl⟩, _, hp, rfl⟩
    · exact .inr ⟨e, left, ⟨_, hq, rfl⟩, _, hp, rfl⟩

/-- Started from any collection, the loop adds the values it reads to it. -/
theorem reads_tillLoop {p : Parser Γ τ α} {q : Parser Γ τ β} {found : Gather α}
    {r : Reading τ (Gather α)} :
    Reads G (.loop found fun found =>
        (q.map fun _ => .inr found).alt (p.map fun a => .inl (found.add a))) tokens r ↔
      ∃ r', Until (Reads G q) (Reads G p) tokens r' ∧ r = r'.map found.addAll := by
  rw [reads_loop]
  constructor
  · intro h
    induction h with
    | step h _ ih =>
      obtain ⟨r', hmore, rfl⟩ := ih
      rcases reads_tillTurn.mp h with ⟨_, _, _, he⟩ | ⟨e, left, hq, ⟨a, _, hp, he⟩ | ⟨_, _, _, he⟩⟩
      · cases he
      · cases he
        exact ⟨_, .next hq hp hmore, (map_cons_addAll _ a r').symm⟩
      · cases he
    | stop h =>
      rcases reads_tillTurn.mp h with ⟨b, _, hq, he⟩ | ⟨_, _, _, ⟨_, _, _, he⟩ | ⟨_, _, _, he⟩⟩
      · cases he
        exact ⟨_, .stop hq, rfl⟩
      · cases he
      · cases he
    | fail h =>
      rcases reads_tillTurn.mp h with ⟨_, _, _, he⟩ | ⟨e, left, hq, ⟨_, _, _, he⟩ | ⟨_, _, hp, he⟩⟩
      · cases he
      · cases he
      · cases he
        exact ⟨_, .fail hq hp, rfl⟩
  · rintro ⟨r', h, rfl⟩
    induction h generalizing found with
    | stop h => exact .stop (reads_tillTurn.mpr (.inl ⟨_, _, h, rfl⟩))
    | fail h h' => exact .fail (reads_tillTurn.mpr (.inr ⟨_, _, h, .inr ⟨_, _, h', rfl⟩⟩))
    | next h h' _ ih =>
      rw [map_cons_addAll]
      exact .step (reads_tillTurn.mpr (.inr ⟨_, _, h, .inl ⟨_, _, h', rfl⟩⟩)) ih

theorem reads_manyTill {p : Parser Γ τ α} {q : Parser Γ τ β} {r : Reading τ (List α)} :
    Reads G (p.manyTill q) tokens r ↔ Until (Reads G q) (Reads G p) tokens r := by
  rw [Parser.manyTill, reads_map]
  constructor
  · rintro ⟨r', h, rfl⟩
    obtain ⟨r'', huntil, rfl⟩ := reads_tillLoop.mp h
    rwa [map_addAll_empty]
  · intro h
    exact ⟨_, reads_tillLoop.mpr ⟨r, h, rfl⟩, (map_addAll_empty r).symm⟩

theorem reads_countFrom {p : Parser Γ τ α} {n : Nat} {found : Gather α}
    {r : Reading τ (Gather α)} :
    Reads G (p.countFrom n found) tokens r ↔
      ∃ r', Times (Reads G p) n tokens r' ∧ r = r'.map found.addAll := by
  induction n generalizing tokens found r with
  | zero =>
    refine Iff.trans (reads_pure found) ⟨?_, ?_⟩
    · rintro rfl
      exact ⟨_, .zero tokens, rfl⟩
    · rintro ⟨r', h, rfl⟩
      cases h
      rfl
  | succ n ih =>
    refine Iff.trans reads_bind ⟨?_, ?_⟩
    · rintro (⟨a, middle, hp, hmore⟩ | ⟨e, rest, hp, rfl⟩)
      · obtain ⟨r', htimes, rfl⟩ := ih.mp hmore
        exact ⟨_, .next hp htimes, (map_cons_addAll _ a r').symm⟩
      · exact ⟨_, .fail hp, rfl⟩
    · rintro ⟨r', h, rfl⟩
      cases h with
      | fail hp => exact .inr ⟨_, _, hp, rfl⟩
      | @next _ _ middle a r' hp htimes =>
        have hmore : Reads G (p.countFrom n (found.add a)) middle (r'.map (found.add a).addAll) :=
          ih.mpr ⟨r', htimes, rfl⟩
        rw [map_cons_addAll]
        exact .inl ⟨a, middle, hp, hmore⟩

theorem reads_count {p : Parser Γ τ α} {n : Int} {r : Reading τ (List α)} :
    Reads G (p.count n) tokens r ↔ Times (Reads G p) n.toNat tokens r := by
  rw [Parser.count, reads_map]
  constructor
  · rintro ⟨r', h, rfl⟩
    obtain ⟨r'', htimes, rfl⟩ := reads_countFrom.mp h
    rwa [map_addAll_empty]
  · intro h
    exact ⟨_, reads_countFrom.mpr ⟨r, h, rfl⟩, (map_addAll_empty r).symm⟩

theorem reads_ensure {n : Int} {r : Reading τ (Buffer τ)} :
    Reads G (ensure n) tokens r ↔
      r = if n ≤ tokens.length then success (.ofList tokens) tokens
        else failure .notEnoughInput tokens := by
  refine reads_of_read_eq 4 ?_
  have hsize : (Buffer.ofList tokens).size = tokens.length := by
    rw [Buffer.size_eq, Buffer.toList_ofList]
  by_cases h : n ≤ tokens.length
  · rw [if_pos h, ensure, read]
    simp only [Bind.bind, Pure.pure, read, Option.bind_some, Reading.andThen, hsize, if_pos h]
  · rw [if_neg h, ensure, read]
    simp only [Bind.bind, read, Option.bind_some, Reading.andThen, hsize, if_neg h]

/-- On complete input all the rest is one chunk, or none. -/
theorem reads_takeRest {r : Reading τ (List (List τ))} :
    Reads G takeRest tokens r ↔ r = success (if tokens.isEmpty then [] else [tokens]) [] := by
  cases tokens with
  | nil => exact reads_of_read_eq 10 rfl
  | cons t rest =>
    have htokens := Buffer.toList_ofList (t :: rest)
    exact reads_of_read_eq 10 (congrArg (fun chunk => some (success [chunk] [])) htokens)

theorem reads_atEnd {r : Reading τ Bool} :
    Reads G atEnd tokens r ↔ r = success tokens.isEmpty tokens := by
  rw [← Bool.not_not tokens.isEmpty]
  exact reads_of_read_eq 3 rfl

end Clauses

end Parser

end Piecemeal
