import Piecemeal.Proofs.Completing
import Piecemeal.Proofs.EndOfStream
import Piecemeal.Proofs.Failing

/-!
# Parsers that never fail

A parser may carry the mark of those that never fail. The mark is set by hand, on the primitive
parsers and on loops over them, and no part of `Parser.exec` looks at it; so it has to be shown that
the parsers of the library that carry it deserve it (`Marked`). The mark may also be forced on any
parser by `total`: `Unforced` are the expressions in which that is not done, and among them the
marked ones are those of the library (`unforced_and_isTotal_iff`).

Repetitions and optional parsers do not carry the mark, yet do not fail either, whatever they repeat
(`Catching`): every attempt at an element is one of two alternatives, of which the second succeeds.

`NeverFails` is what is meant: no run ends with a failure, what is to be done after one makes no
difference, and a caller gets no rejection.
-/

namespace Piecemeal

variable {ι : Type} {Γ : ι → Type} {τ α β ρ σ : Type}

namespace Run

/-! ## Answers that are reached -/

/-- What a run is bound to matters at the answers it reaches. -/
theorem bind_congr {r : Run τ ρ} {f g : ρ → Run τ σ}
    (h : ∀ replies a, r.Reaches replies (.done a) → f a = g a) : r.bind f = r.bind g := by
  induction r with
  | done a => exact h [] a (.here _)
  | later next ih =>
    have hnext : (next ()).bind f = (next ()).bind g :=
      ih () fun replies a hr => h replies a (.later hr)
    simp only [Run.bind, hnext]
  | await input onEnd onChunk ihEnd ihChunk =>
    have hend : (onEnd ()).bind f = (onEnd ()).bind g :=
      ihEnd () fun replies a hr => h _ a (.ended hr)
    have hchunk : ∀ tokens, (onChunk tokens).bind f = (onChunk tokens).bind g :=
      fun tokens => ihChunk tokens fun replies a hr => h _ a (.chunk tokens hr)
    simp only [Run.bind, hend, hchunk]
  | exhausted => rfl

/-- A law of verdicts that does not depend on what is left unread holds of every result that is
over, if it holds of every verdict the run reaches. -/
theorem Obtains.verdict {P : Verdict τ α → Prop} (hP : ∀ v chunk, P v → P (v.extend chunk))
    {r : Parse τ α} (hr : ∀ replies v, r.Reaches replies (.done v) → P v) {result : Result τ α}
    (h : Obtains r result) {v : Verdict τ α} (hresult : result = .done v) : P v := by
  induction h generalizing v with
  | started prompt =>
    obtain ⟨replies, hpath⟩ := exists_reaches_of_settleWith r prompt
    rw [hresult] at hpath
    exact hr replies v hpath
  | @fed earlier hearlier chunk prompt ih =>
    cases earlier with
    | done v' =>
      cases hresult
      exact hP v' chunk (ih rfl)
    | exhausted => cases hresult
    | await input onEnd onChunk =>
      obtain ⟨first, hfirst⟩ := hearlier.exists_reaches rfl
      obtain ⟨second, hsecond⟩ := exists_reaches_of_settleWith (onChunk chunk) prompt
      rw [show ((onChunk chunk).settleWith prompt).1 = _ from hresult] at hsecond
      exact hr _ v (hfirst.trans (.chunk chunk hsecond))

theorem Obtains.verdict_of_finish {P : Verdict τ α → Prop}
    (hP : ∀ v chunk, P v → P (v.extend chunk)) {r : Parse τ α}
    (hr : ∀ replies v, r.Reaches replies (.done v) → P v) {result : Result τ α}
    (h : Obtains r result) {v : Verdict τ α} (hfinish : result.finish = some v) : P v := by
  cases result with
  | done v' =>
    cases hfinish
    exact h.verdict hP hr rfl
  | exhausted => cases hfinish
  | await input onEnd onChunk =>
    obtain ⟨first, hfirst⟩ := h.exists_reaches rfl
    obtain ⟨second, hsecond⟩ := exists_reaches_of_finish hfinish
    exact hr _ v (hfirst.trans (.ended hsecond))

end Run

namespace Parser

/-! ## Never failing -/

/-- The parser never fails, whatever state it is started in and however it is answered. -/
structure NeverFails (G : Rules Γ τ) (p : Parser Γ τ α) : Prop where
  /-- A run that is over has succeeded. -/
  succeeds : ∀ {budget s replies o}, (p.outcome G budget s).Reaches replies (.done o) →
    ∃ s' a, o = .success s' a
  /-- What is to be done after a failure is never done. -/
  indifferent : ∀ {ρ : Type} (budget : Nat) (s : Input τ) (ko ko' : Input τ → Failure → Run τ ρ)
    (ok : Input τ → α → Run τ ρ), p.exec G budget s ko ok = p.exec G budget s ko' ok
  /-- A parse, started, fed and finished in any way, is accepted if it comes to a verdict. -/
  accepted : ∀ {budget s result verdict}, (p.start G budget s).Obtains result →
    result.finish = some verdict → ∃ a rest, verdict = .accepted a rest

theorem Unfailing.neverFails {G : Rules Γ τ} {p : Parser Γ τ α} (hp : p.Unfailing G) :
    p.NeverFails G := by
  have hsucceeds : ∀ {budget s replies o},
      (p.outcome G budget s).Reaches replies (.done o) → ∃ s' a, o = .success s' a := by
    intro budget s replies o hr
    have ho := (hp budget s).ends hr
    cases o with
    | failure s' e => exact absurd rfl (ho s' e)
    | success s' a => exact ⟨s', a, rfl⟩
  refine ⟨hsucceeds, ?_, ?_⟩
  · intro ρ budget s ko ko' ok
    rw [exec_eq_bind, exec_eq_bind]
    refine Run.bind_congr fun replies o hr => ?_
    obtain ⟨s', a, rfl⟩ := hsucceeds hr
    rfl
  · intro budget s result verdict h hfinish
    refine h.verdict_of_finish (P := fun v => ∃ a rest, v = .accepted a rest) ?_ ?_ hfinish
    · rintro v chunk ⟨a, rest, rfl⟩
      exact ⟨a, _, rfl⟩
    · intro replies v hr
      rw [start_eq] at hr
      cases hr with
      | later hrest =>
        rcases hrest.of_bind with ⟨r, -, hr', hn⟩ | ⟨first, second, o, -, hfirst, hsecond⟩
        · cases r with
          | done o => exact absurd rfl (hr' o)
          | later | await | exhausted => cases hn
        · obtain ⟨s', a, rfl⟩ := hsucceeds hfirst
          cases hsecond
          exact ⟨a, s'.remaining, rfl⟩

section Library

variable {G : Rules Γ τ}

theorem unfailing_takeRest : (takeRest : Parser Γ τ _).Unfailing G := by
  refine Concludes.total (Unfailing.map (Unfailing.loop (fun found => ?_) _) _)
  refine unfailing_wantInput.bind fun more => ?_
  split
  · exact unfailing_get.bind fun input => (unfailing_put _).bind fun _ => unfailing_pure _
  · exact unfailing_pure _

theorem unfailing_atEnd : (atEnd : Parser Γ τ _).Unfailing G :=
  Concludes.total (unfailing_wantInput.map _)

theorem unfailing_optional (p : Parser Γ τ α) : p.optional.Unfailing G := unfailing_option _ _

theorem unfailing_skipMany (p : Parser Γ τ α) : p.skipMany.Unfailing G := by
  refine Unfailing.loop (fun _ => (unfailing_optional p).bind fun a? => ?_) _
  cases a? with
  | none => exact unfailing_pure _
  | some a => exact unfailing_pure _

end Library

/-! ## The mark -/

/-- The parsers of the library that carry the mark. -/
inductive Marked : (α : Type) → Parser Γ τ α → Prop
  | pure {α : Type} (a : α) : Marked α (pure a)
  | get : Marked _ get
  | put (tokens : Buffer τ) : Marked _ (put tokens)
  | wantInput : Marked _ wantInput
  | skipWhile (p : τ → Bool) : Marked _ (skipWhile p)
  | takeWhile (p : τ → Bool) : Marked _ (takeWhile p)
  | takeTill (p : τ → Bool) : Marked _ (takeTill p)
  | takeRest : Marked _ takeRest
  | atEnd : Marked _ atEnd
  | choice {α : Type} {p : Parser Γ τ α} (h : Marked α p) : Marked α (choice [p])

/-- The mark is not forced on any part of the expression. -/
inductive Unforced : {α : Type} → Parser Γ τ α → Prop
  | marked {α : Type} {p : Parser Γ τ α} (h : Marked α p) : Unforced p
  | fail {α : Type} (message : String) : Unforced (fail message : Parser Γ τ α)
  | demandInput : Unforced demandInput
  | bind {α β : Type} {p : Parser Γ τ β} {f : β → Parser Γ τ α} (hp : Unforced p)
      (hf : ∀ b, Unforced (f b)) : Unforced (p.bind f)
  | alt {α : Type} {p q : Parser Γ τ α} (hp : Unforced p) (hq : Unforced q) : Unforced (p.alt q)
  | lookAhead {α : Type} {p : Parser Γ τ α} (hp : Unforced p) : Unforced p.lookAhead
  | label {α : Type} {p : Parser Γ τ α} (hp : Unforced p) (name : String) :
      Unforced (p.label name)
  | loop {σ α : Type} (start : σ) {body : σ → Parser Γ τ (σ ⊕ α)}
      (hbody : ∀ state, Unforced (body state)) : Unforced (loop start body)
  | rule (i : ι) : Unforced (rule i)

theorem Marked.isTotal {p : Parser Γ τ α} (hp : Marked α p) : p.isTotal = true := by
  induction hp with
  | choice h ih => exact ih
  | _ => rfl

theorem Marked.unfailing {G : Rules Γ τ} {p : Parser Γ τ α} (hp : Marked α p) :
    p.Unfailing G := by
  induction hp with
  | pure a => exact unfailing_pure a
  | get => exact unfailing_get
  | put tokens => exact unfailing_put tokens
  | wantInput => exact unfailing_wantInput
  | skipWhile p => exact unfailing_skipWhile p
  | takeWhile p => exact unfailing_takeWhile p
  | takeTill p => exact unfailing_takeWhile _
  | takeRest => exact unfailing_takeRest
  | atEnd => exact unfailing_atEnd
  | choice h ih => exact ih

/-- Combining parsers drops the mark, so an expression that carries it without force is one of the
marked parsers. -/
theorem unforced_and_isTotal_iff (p : Parser Γ τ α) :
    p.Unforced ∧ p.isTotal = true ↔ Marked α p := by
  refine ⟨fun ⟨hp, hmark⟩ => ?_, fun h => ⟨.marked h, h.isTotal⟩⟩
  cases hp with
  | marked h => exact h
  | fail | demandInput | bind | alt | lookAhead | label | loop | rule => cases hmark

/-! ## Repetitions and optional parsers -/

open Text in
/-- The parsers of the library in which every failure of a part is caught. -/
inductive Catching : (τ α : Type) → Parser Γ τ α → Prop
  | many {τ α : Type} (p : Parser Γ τ α) : Catching τ _ p.many
  | skipMany {τ α : Type} (p : Parser Γ τ α) : Catching τ _ p.skipMany
  | option {τ α : Type} (fallback : α) (p : Parser Γ τ α) : Catching τ _ (p.option fallback)
  | optional {τ α : Type} (p : Parser Γ τ α) : Catching τ _ p.optional
  | sepBy {τ α β : Type} (p : Parser Γ τ α) (separator : Parser Γ τ β) :
      Catching τ _ (p.sepBy separator)
  | spaces : Catching _ _ spaces
  | skipSpaces : Catching _ _ skipSpaces
  | skipWhitespaces : Catching _ _ skipWhitespaces

theorem Catching.unfailing {G : Rules Γ τ} {p : Parser Γ τ α} (hp : Catching τ α p) :
    p.Unfailing G := by
  cases hp with
  | many p => exact unfailing_many p
  | skipMany p => exact unfailing_skipMany p
  | option fallback p => exact unfailing_option fallback p
  | optional p => exact unfailing_optional p
  | sepBy p separator => exact unfailing_option [] _
  | spaces => exact unfailing_many _
  | skipSpaces => exact unfailing_skipMany _
  | skipWhitespaces => exact unfailing_skipMany _

/-- **Never-failing parsers never fail.** An expression carries the mark without force exactly if it
is one of the marked parsers of the library. Each of these, and each repetition and optional parser
whatever its parts are, succeeds wherever a run of it is over, started in any state and answered in
any way; what was to be done after a failure is never done, and no caller gets a rejection. -/
theorem never_fails (G : Rules Γ τ) (p : Parser Γ τ α) :
    (p.Unforced ∧ p.isTotal = true ↔ Marked α p) ∧
    (Marked α p ∨ Catching τ α p → p.NeverFails G) := by
  refine ⟨unforced_and_isTotal_iff p, ?_⟩
  rintro (hp | hp)
  · exact hp.unfailing.neverFails
  · exact hp.unfailing.neverFails

/-- Three tokens if there are so many. -/
def threeIfAny : Parser Empty.elim Nat (Option (List Nat)) := (take 3).optional

/-- The stream ends after two tokens, which are given back. -/
theorem never_fails_threeIfAny :
    (choice [takeRest] : Parser Empty.elim Nat _).NeverFails nofun ∧
    threeIfAny.NeverFails nofun ∧ ∃ o, (threeIfAny.outcome nofun 20
        ⟨.ofList [1], false, some (.ofList [7])⟩).Reaches
      [.handBack, .chunk [], .chunk [2], .ended] (.done o) ∧
    ∃ s' a, o = .success s' a := by
  have hchoice : (choice [takeRest] : Parser Empty.elim Nat _).NeverFails nofun :=
    (never_fails _ _).2 (.inl (.choice .takeRest))
  have hthree : threeIfAny.NeverFails nofun := (never_fails _ _).2 (.inr (.optional _))
  obtain ⟨o, hpath⟩ : ∃ o, (threeIfAny.outcome nofun 20
      ⟨.ofList [1], false, some (.ofList [7])⟩).Reaches
        [.handBack, .chunk [], .chunk [2], .ended] (.done o) := by
    refine ⟨?o, ?path⟩
    case path =>
      repeat' first
        | refine .later ?_
        | refine .chunk _ ?_
        | refine .handBack ?_
        | refine .ended ?_
        | exact .here _
  exact ⟨hchoice, hthree, o, hpath, hthree.succeeds hpath⟩

end Parser

end Piecemeal
