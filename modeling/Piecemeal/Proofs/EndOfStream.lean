import Piecemeal.Proofs.Record

/-!
# The end of the stream

Alternatives and looking ahead go back to states in which the end of the stream was not known yet.
It is carried over whenever they do, so a parser that has once been told of the end never asks
again:

* a run waits only in a state in which the stream is open, and only if it was open at the start and
  no reply has reported its end (`stillOpen_of_waits`);
* after the end a run is `Quiet`: it takes silent steps only, and every prompt is left as it was
  (`Quiet.settleWith`).

`end_permanent` says so for the runs of every expression, for complete input, and for the suspended
results that a caller gets by starting and feeding a parse (`Run.Obtains`).
-/

namespace Piecemeal

variable {ι : Type} {Γ : ι → Type} {τ α ρ : Type}

namespace Run

/-! ## Runs that ask nobody -/

/-- The run is over after silent steps. -/
inductive Quiet : Run τ ρ → Prop
  | done (a : ρ) : Quiet (.done a)
  | later {next : Unit → Run τ ρ} (h : Quiet (next ())) : Quiet (.later next)
  | exhausted : Quiet .exhausted

theorem quiet_of_not_waits {r : Run τ ρ}
    (h : ∀ replies input onEnd onChunk, ¬ r.Reaches replies (.await input onEnd onChunk)) :
    r.Quiet := by
  induction r with
  | done a => exact .done a
  | later next ih =>
    refine .later (ih () ?_)
    intro replies input onEnd onChunk hr
    exact h _ _ _ _ (.later hr)
  | await input onEnd onChunk => exact absurd (.here _) (h [] input onEnd onChunk)
  | exhausted => exact .exhausted

end Run

/-- Where a run stops that asks nobody and has this answer. -/
def Stage.ofAnswer : Option ρ → Stage τ ρ
  | some a => .done a
  | none => .exhausted

theorem Stage.ofAnswer_ne_await (answer : Option ρ) (input : Input τ) (onEnd : Unit → Run τ ρ)
    (onChunk : List τ → Run τ ρ) : ofAnswer answer ≠ .await input onEnd onChunk := by
  cases answer <;> nofun

/-- The node of a run at which it has settled. -/
def Stage.node : Stage τ ρ → Run τ ρ
  | done a => .done a
  | await input onEnd onChunk => .await input onEnd onChunk
  | exhausted => .exhausted

namespace Run

theorem Quiet.settleWith {r : Run τ ρ} (h : r.Quiet) (prompt : Prompt τ) :
    r.settleWith prompt = (.ofAnswer r.finish, prompt) := by
  induction h with
  | done a => rfl
  | later _ ih => exact ih
  | exhausted => rfl

theorem Quiet.bind {σ : Type} {r : Run τ ρ} {f : ρ → Run τ σ} (h : r.Quiet)
    (hf : ∀ a, (f a).Quiet) : (r.bind f).Quiet := by
  induction h with
  | done a => exact hf a
  | later _ ih => exact .later ih
  | exhausted => exact .exhausted

/-! ## Results on the way -/

/-- The results a caller may get of a parse by starting and feeding it, whatever the prompts are
that answer in between. -/
inductive Obtains (r : Parse τ α) : Result τ α → Prop
  | started (prompt : Prompt τ) : Obtains r (r.settleWith prompt).1
  | fed {result : Result τ α} (h : Obtains r result) (chunk : List τ) (prompt : Prompt τ) :
      Obtains r (result.feedWith prompt chunk).1

/-- Settling a run with a prompt comes to a node of it. -/
theorem exists_reaches_of_settleWith (r : Run τ ρ) (prompt : Prompt τ) :
    ∃ replies, r.Reaches replies (r.settleWith prompt).1.node := by
  induction r generalizing prompt with
  | done a => exact ⟨[], .here _⟩
  | later next ih =>
    obtain ⟨replies, hr⟩ := ih () prompt
    exact ⟨replies, .later hr⟩
  | await input onEnd onChunk ihEnd ihChunk =>
    rw [Run.settleWith]
    split
    · next tokens rest _ =>
      obtain ⟨replies, hr⟩ := ihChunk tokens rest
      exact ⟨.chunk tokens :: replies, .chunk tokens hr⟩
    · next rest _ =>
      obtain ⟨replies, hr⟩ := ihEnd () rest
      exact ⟨.ended :: replies, .ended hr⟩
    · exact ⟨[], .here _⟩
  | exhausted => exact ⟨[], .here _⟩

/-- A suspended result is a place where the run waits. -/
theorem Obtains.exists_reaches {r : Parse τ α} {result : Result τ α} (h : Obtains r result)
    {input : Input τ} {onEnd : Unit → Parse τ α} {onChunk : List τ → Parse τ α}
    (hresult : result = .await input onEnd onChunk) :
    ∃ replies, r.Reaches replies (.await input onEnd onChunk) := by
  induction h generalizing input onEnd onChunk with
  | started prompt =>
    obtain ⟨replies, hr⟩ := exists_reaches_of_settleWith r prompt
    rw [hresult] at hr
    exact ⟨replies, hr⟩
  | @fed earlier _ chunk prompt ih =>
    cases earlier with
    | done verdict => cases hresult
    | exhausted => cases hresult
    | await i e c =>
      obtain ⟨first, hfirst⟩ := ih rfl
      obtain ⟨second, hsecond⟩ := exists_reaches_of_settleWith (c chunk) prompt
      rw [show ((c chunk).settleWith prompt).1 = _ from hresult] at hsecond
      exact ⟨first ++ .chunk chunk :: second, hfirst.trans (.chunk chunk hsecond)⟩

end Run

/-! ## Waiting while the stream is open -/

/-- The stream was open in `s`, no reply since then has reported its end, and it is open in `i`. -/
structure StillOpen (s : Input τ) (replies : List (Reply τ)) (i : Input τ) : Prop where
  start : s.closed = false
  replies : endReported replies = false
  here : i.closed = false

theorem invariant_stillOpen : Invariant (StillOpen (τ := τ)) Recorded where
  refl := invariant_recorded.refl
  trans := invariant_recorded.trans
  wait {s s' i first second} h h' := by
    have hclosed : (s.closed || endReported first) = false := h.closed.symm.trans h'.start
    obtain ⟨hstart, hfirst⟩ := Bool.or_eq_false_iff.mp hclosed
    refine ⟨hstart, ?_, h'.here⟩
    rw [endReported_append, hfirst, h'.replies]
    rfl
  wait_checkpoint h := ⟨h.start, h.replies, h.here⟩
  keep := invariant_recorded.keep
  rewind := invariant_recorded.rewind

theorem stillOpen_of_idle {s : Input τ} {replies : List (Reply τ)} (hs : s.closed = false)
    (h : Idle replies) : StillOpen s replies s :=
  ⟨hs, h.2, hs⟩

namespace Parser

open Run

variable {G : Rules Γ τ} {budget : Nat} {p : Parser Γ τ α} {s : Input τ}
  {replies : List (Reply τ)} {input : Input τ}

theorem stillOpen_of_primitive (hp : Primitive α p)
    {onEnd : Unit → Run τ (Outcome τ α)} {onChunk : List τ → Run τ (Outcome τ α)}
    (h : (p.outcome G budget s).Reaches replies (.await input onEnd onChunk)) :
    StillOpen s replies input := by
  cases budget with
  | zero => cases h
  | succ budget =>
    cases hp with
    | get =>
      cases h with
      | later rest => cases rest
    | put tokens =>
      cases h with
      | later rest => cases rest
    | demandInput =>
      by_cases hs : s.closed = true
      · rw [outcome_demandInput, if_pos hs] at h
        cases h with
        | later rest => cases rest
      · obtain ⟨hidle, rfl⟩ := (meets_demandInput G (budget + 1) s).waits h
        exact stillOpen_of_idle (Bool.eq_false_iff.mpr hs) hidle
    | wantInput =>
      by_cases hs : s.closed = true
      · rw [outcome_wantInput, if_pos hs] at h
        split at h
        · cases h with
          | later rest => cases rest
        · cases h with
          | later rest => cases rest
      · obtain ⟨hidle, rfl⟩ := (meets_wantInput G (budget + 1) s).waits h
        exact stillOpen_of_idle (Bool.eq_false_iff.mpr hs) hidle

theorem stillOpen_of_waits {onEnd : Unit → Run τ (Outcome τ α)}
    {onChunk : List τ → Run τ (Outcome τ α)}
    (h : (p.outcome G budget s).Reaches replies (.await input onEnd onChunk)) :
    StillOpen s replies input := by
  refine (Built.meets invariant_stillOpen (fun i => built_primitive (G i)) ?_
    (built_primitive p) budget s).waits h
  intro α q hq n s'
  exact ⟨stillOpen_of_primitive hq, (obeys_recorded_of_primitive hq n s').ends⟩

/-- Where the end is known nothing is asked for any more. -/
theorem quiet_of_reaches {r : Run τ (Outcome τ α)} (h : (p.outcome G budget s).Reaches replies r)
    (hend : (s.closed || endReported replies) = true) : r.Quiet := by
  refine quiet_of_not_waits ?_
  intro more input onEnd onChunk hr
  have hopen := stillOpen_of_waits (h.trans hr)
  have hreplies : endReported replies = false := by
    have := hopen.replies
    rw [endReported_append] at this
    exact (Bool.or_eq_false_iff.mp this).1
  rw [hopen.start, hreplies] at hend
  cases hend

/-- Told of the end, a run that waits asks nobody any more. -/
theorem quiet_onEnd {onEnd : Unit → Run τ (Outcome τ α)} {onChunk : List τ → Run τ (Outcome τ α)}
    (h : (p.outcome G budget s).Reaches replies (.await input onEnd onChunk)) :
    (onEnd ()).Quiet := by
  refine quiet_of_reaches (h.trans (.ended (.here _))) ?_
  rw [endReported_append]
  simp [Reply.isEnd]

theorem quiet_start (h : s.closed = true) : (p.start G budget s).Quiet := by
  have hquiet : (p.outcome G budget s).Quiet := by
    refine quiet_of_reaches (.here _) ?_
    rw [h]
    rfl
  rw [start_eq]
  exact .later (hquiet.bind fun o => .done o.verdict)

/-- A parse waits where the run of its parser does, and after the end it is over. -/
theorem waits_of_start {onEnd : Unit → Parse τ α} {onChunk : List τ → Parse τ α}
    (h : (p.start G budget s).Reaches replies (.await input onEnd onChunk)) :
    StillOpen s replies input ∧ (onEnd ()).Quiet := by
  rw [start_eq] at h
  cases h with
  | later rest =>
    rcases rest.of_bind with ⟨r, hr, -, hn⟩ | ⟨first, second, o, -, -, hsecond⟩
    · cases r with
      | await i e c =>
        cases hn
        exact ⟨stillOpen_of_waits hr, (quiet_onEnd hr).bind fun o => .done o.verdict⟩
      | done o => cases hn
      | later next => cases hn
      | exhausted => cases hn
    · cases hsecond

/-- **The end of the stream is permanent.** A run waits only where the stream is open. Once its end
is known, from the start or by a reply, the run asks no prompt, is not suspended again, and leaves
every success and failure with the end known. So complete input is parsed without asking, and a
suspended result, wherever it comes from, is open and over once it is told of the end. -/
theorem end_permanent (G : Rules Γ τ) (budget : Nat) (p : Parser Γ τ α) (s : Input τ) :
    (∀ replies input onEnd onChunk,
      (p.outcome G budget s).Reaches replies (.await input onEnd onChunk) →
        input.closed = false) ∧
    (∀ replies r, (p.outcome G budget s).Reaches replies r →
      (s.closed || endReported replies) = true →
        (∀ o, r = .done o → o.input.closed = true) ∧
        ∀ prompt, (r.settleWith prompt).2 = prompt ∧
          ∀ input onEnd onChunk, (r.settleWith prompt).1 ≠ .await input onEnd onChunk) ∧
    (∀ tokens prompt, (p.start G budget (.ofList tokens true)).settleWith prompt =
      (.ofAnswer (p.parseAll G budget tokens), prompt)) ∧
    ∀ input onEnd onChunk, (p.start G budget s).Obtains (.await input onEnd onChunk) →
      input.closed = false ∧ ∀ prompt, (onEnd ()).settleWith prompt =
        (.ofAnswer (Result.finish (.await input onEnd onChunk)), prompt) := by
  refine ⟨?_, ?_, ?_, ?_⟩
  · intro replies input onEnd onChunk h
    exact (stillOpen_of_waits h).here
  · intro replies r h hend
    constructor
    · intro o ho
      subst ho
      exact (recorded_of_reaches h).closed.trans hend
    · intro prompt
      rw [(quiet_of_reaches h hend).settleWith prompt]
      exact ⟨rfl, Stage.ofAnswer_ne_await _⟩
  · intro tokens prompt
    have hquiet : (p.start G budget (.ofList tokens true)).Quiet := quiet_start rfl
    exact hquiet.settleWith prompt
  · intro input onEnd onChunk h
    obtain ⟨replies, hr⟩ := h.exists_reaches rfl
    obtain ⟨hopen, hquiet⟩ := waits_of_start hr
    exact ⟨hopen.here, hquiet.settleWith⟩

/-- Two tokens, or all there are: the end is reported to the alternative that fails. -/
def twoOrRest : Parser Empty.elim Nat (List Nat) := (take 2).alt (takeWhile fun _ => true)

theorem end_permanent_twoOrRest :
    (∃ o, (twoOrRest.outcome nofun 20 ⟨.empty, false, none⟩).Reaches
      [.handBack, .chunk [1], .chunk [], .ended] (.done o) ∧ o.input.closed = true) ∧
    ∃ input onEnd onChunk verdict, twoOrRest.parse nofun 20 [1] = .await input onEnd onChunk ∧
      input.closed = false ∧
      ∀ prompt, (onEnd ()).settleWith prompt = (.done verdict, prompt) := by
  obtain ⟨o, hpath⟩ : ∃ o, (twoOrRest.outcome nofun 20 ⟨.empty, false, none⟩).Reaches
      [.handBack, .chunk [1], .chunk [], .ended] (.done o) := by
    refine ⟨?o, ?path⟩
    case path =>
      repeat' first
        | refine .later ?_
        | refine .chunk _ ?_
        | refine .handBack ?_
        | refine .ended ?_
        | exact .here _
  obtain ⟨input, onEnd, onChunk, hparse⟩ : ∃ input onEnd onChunk,
      twoOrRest.parse nofun 20 [1] = .await input onEnd onChunk := ⟨_, _, _, rfl⟩
  obtain ⟨verdict, hverdict⟩ : ∃ verdict,
      Result.finish (twoOrRest.parse nofun 20 [1]) = some verdict := ⟨_, rfl⟩
  have hobtained : (twoOrRest.start nofun 20 (.ofList [1] false)).Obtains
      (.await input onEnd onChunk) := by
    rw [← hparse, parse, parseInput, ← settleWith_caller _ 0]
    exact .started _
  have hresult := (end_permanent nofun 20 twoOrRest _).2.2.2 _ _ _ hobtained
  rw [hparse] at hverdict
  rw [hverdict] at hresult
  exact ⟨⟨o, hpath, ((end_permanent nofun 20 twoOrRest _).2.1 _ _ hpath rfl).1 o rfl⟩,
    input, onEnd, onChunk, verdict, hparse, hresult⟩

end Parser

end Piecemeal
