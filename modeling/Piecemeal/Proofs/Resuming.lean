import Piecemeal.Prompt
import Piecemeal.Proofs.Outcome

/-!
# Resuming a run

A run is settled, with a prompt that may answer some of its waits on the spot, and resumed with a
chunk or the end each time the prompt hands it back. `Run.passage` follows it through such a
sequence of events and keeps the states in which it was suspended.

Going on from the answer of a run does not touch what happens before: the passage through `r.bind f`
is the passage through `r`, and then, if that came to an answer, the passage through `f` at this
answer with the events that are left (`passage_bind`). For the continuations of a parser this means
that one of them is called, once, and with the outcome that the parser has by itself
(`continuation_called_once`).
-/

namespace Piecemeal

variable {ι : Type} {Γ : ι → Type} {τ α ρ σ : Type}

/-- What a suspended run is resumed with. -/
inductive Resumption (τ : Type)
  | chunk (tokens : List τ)
  | ended

/-- How far a run has come. -/
structure Passage (τ ρ : Type) where
  /-- The states in which it was suspended before it was resumed, in order. -/
  waited : List (Input τ)
  /-- Where it stands. -/
  stage : Stage τ ρ
  /-- The prompt as it was left. -/
  prompt : Prompt τ
  /-- The events it was not resumed with, being over before. -/
  unused : List (Resumption τ)

/-- A passage that comes after waiting in the given states. -/
def Passage.behind (waited : List (Input τ)) (passage : Passage τ ρ) : Passage τ ρ :=
  { passage with waited := waited ++ passage.waited }

namespace Stage

/-- Resumes a run with one event after another, as long as it is suspended. -/
def resumed : List (Resumption τ) → Stage τ ρ × Prompt τ → Passage τ ρ
  | .ended :: events, (.await input onEnd _, prompt) =>
    (resumed events ((onEnd ()).settleWith prompt)).behind [input]
  | .chunk tokens :: events, (.await input _ onChunk, prompt) =>
    (resumed events ((onChunk tokens).settleWith prompt)).behind [input]
  | events, (stage, prompt) => ⟨[], stage, prompt, events⟩

theorem resumed_nil (stage : Stage τ ρ) (prompt : Prompt τ) :
    resumed [] (stage, prompt) = ⟨[], stage, prompt, []⟩ := by
  cases stage <;> rfl

theorem resumed_done (events : List (Resumption τ)) (a : ρ) (prompt : Prompt τ) :
    resumed events (.done a, prompt) = ⟨[], .done a, prompt, events⟩ := by
  rcases events with _ | ⟨_ | _, _⟩ <;> rfl

theorem resumed_exhausted (events : List (Resumption τ)) (prompt : Prompt τ) :
    resumed events ((.exhausted : Stage τ ρ), prompt) = ⟨[], .exhausted, prompt, events⟩ := by
  rcases events with _ | ⟨_ | _, _⟩ <;> rfl

/-- Goes on from the answer of a settled run, if there is one. -/
def onward (f : ρ → Run τ σ) : Stage τ ρ × Prompt τ → Stage τ σ × Prompt τ
  | (.done a, prompt) => (f a).settleWith prompt
  | (.await input onEnd onChunk, prompt) =>
    (.await input (fun _ => (onEnd ()).bind f) (fun tokens => (onChunk tokens).bind f), prompt)
  | (.exhausted, prompt) => (.exhausted, prompt)

end Stage

namespace Run

/-- Settles a run and resumes it with the given events. -/
def passage (r : Run τ ρ) (prompt : Prompt τ) (events : List (Resumption τ)) : Passage τ ρ :=
  Stage.resumed events (r.settleWith prompt)

theorem settleWith_bind (r : Run τ ρ) (f : ρ → Run τ σ) (prompt : Prompt τ) :
    (r.bind f).settleWith prompt = Stage.onward f (r.settleWith prompt) := by
  induction r generalizing prompt with
  | done a => rfl
  | later next ih => exact ih () prompt
  | await input onEnd onChunk ihEnd ihChunk =>
    rw [bind, settleWith, settleWith]
    split
    · exact ihChunk _ _
    · exact ihEnd () _
    · rfl
  | exhausted => rfl

end Run

namespace Stage

/-- A suspended run has used up its events. -/
theorem unused_of_await {events : List (Resumption τ)} {start : Stage τ ρ × Prompt τ}
    {input : Input τ} {onEnd : Unit → Run τ ρ} {onChunk : List τ → Run τ ρ}
    (h : (resumed events start).stage = .await input onEnd onChunk) :
    (resumed events start).unused = [] := by
  obtain ⟨stage, prompt⟩ := start
  induction events generalizing stage prompt with
  | nil => rw [resumed_nil]
  | cons event events ih =>
    cases stage with
    | done a =>
      rw [resumed_done] at h
      cases h
    | exhausted =>
      rw [resumed_exhausted] at h
      cases h
    | await i e c =>
      cases event with
      | ended => exact ih _ _ h
      | chunk tokens => exact ih _ _ h

theorem resumed_onward (f : ρ → Run τ σ) (events : List (Resumption τ))
    (start : Stage τ ρ × Prompt τ) :
    resumed events (onward f start) =
      (resumed (resumed events start).unused
        (onward f ((resumed events start).stage, (resumed events start).prompt))).behind
        (resumed events start).waited := by
  obtain ⟨stage, prompt⟩ := start
  induction events generalizing stage prompt with
  | nil => rw [resumed_nil]; rfl
  | cons event events ih =>
    cases stage with
    | done a => rw [resumed_done]; rfl
    | exhausted => rw [resumed_exhausted]; rfl
    | await input onEnd onChunk =>
      -- the run with its continuation is suspended in the same state and resumed alike
      cases event with
      | ended =>
        have hstep := ih ((onEnd ()).settleWith prompt).1 ((onEnd ()).settleWith prompt).2
        rw [onward, resumed, Run.settleWith_bind, hstep]
        rfl
      | chunk tokens =>
        have hstep := ih ((onChunk tokens).settleWith prompt).1
          ((onChunk tokens).settleWith prompt).2
        rw [onward, resumed, Run.settleWith_bind, hstep]
        rfl

end Stage

theorem Run.passage_bind (r : Run τ ρ) (f : ρ → Run τ σ) (prompt : Prompt τ)
    (events : List (Resumption τ)) :
    (r.bind f).passage prompt events =
      (Stage.resumed (r.passage prompt events).unused
        (Stage.onward f ((r.passage prompt events).stage, (r.passage prompt events).prompt))).behind
        (r.passage prompt events).waited := by
  rw [passage, settleWith_bind]
  exact Stage.resumed_onward f events _

namespace Parser

/-- **One continuation is called, once.** Whatever is to follow a parser, its run is the run of the
parser alone with the continuation in place of each outcome. So, whichever prompt answers and
whatever it is resumed with, it passes through the same suspended states as the parser alone. Where
that one comes to an outcome, what follows is the continuation at this outcome with the prompt and
the events that are left; until then there is no trace of the continuations. -/
theorem continuation_called_once (G : Rules Γ τ) (budget : Nat) (p : Parser Γ τ α) (s : Input τ)
    (ko : Input τ → Failure → Run τ ρ) (ok : Input τ → α → Run τ ρ) :
    p.exec G budget s ko ok = (p.outcome G budget s).bind (Outcome.route ko ok) ∧
    ∀ (prompt : Prompt τ) (events : List (Resumption τ)) waited prompt' unused,
      (∀ s' e, (p.outcome G budget s).passage prompt events =
          ⟨waited, .done (.failure s' e), prompt', unused⟩ →
        (p.exec G budget s ko ok).passage prompt events =
          ((ko s' e).passage prompt' unused).behind waited) ∧
      (∀ s' a, (p.outcome G budget s).passage prompt events =
          ⟨waited, .done (.success s' a), prompt', unused⟩ →
        (p.exec G budget s ko ok).passage prompt events =
          ((ok s' a).passage prompt' unused).behind waited) ∧
      (∀ input onEnd onChunk, (p.outcome G budget s).passage prompt events =
          ⟨waited, .await input onEnd onChunk, prompt', unused⟩ →
        unused = [] ∧ ∃ onEnd' onChunk', (p.exec G budget s ko ok).passage prompt events =
          ⟨waited, .await input onEnd' onChunk', prompt', []⟩) ∧
      ((p.outcome G budget s).passage prompt events = ⟨waited, .exhausted, prompt', unused⟩ →
        (p.exec G budget s ko ok).passage prompt events =
          ⟨waited, .exhausted, prompt', unused⟩) := by
  have hexec := exec_eq_bind G budget p s ko ok
  refine ⟨hexec, ?_⟩
  intro prompt events waited prompt' unused
  have hpassage := (p.outcome G budget s).passage_bind (Outcome.route ko ok) prompt events
  rw [← hexec] at hpassage
  refine ⟨?_, ?_, ?_, ?_⟩
  · intro s' e h
    rw [hpassage, h]
    rfl
  · intro s' a h
    rw [hpassage, h]
    rfl
  · intro input onEnd onChunk h
    have hunused : unused = [] := by
      have hnil := Stage.unused_of_await (congrArg Passage.stage h)
      rw [← Run.passage, h] at hnil
      exact hnil
    subst hunused
    refine ⟨rfl, fun _ => (onEnd ()).bind (Outcome.route ko ok),
      fun tokens => (onChunk tokens).bind (Outcome.route ko ok), ?_⟩
    rw [hpassage, h]
    simp only [Stage.onward, Stage.resumed_nil, Passage.behind, List.append_nil]
  · intro h
    rw [hpassage, h]
    simp only [Stage.onward, Stage.resumed_exhausted, Passage.behind, List.append_nil]

/-- Waits for a chunk and is given up all the same. -/
def givenUp : Parser Empty.elim Nat Nat := (demandInput.bind fun _ => fail "no").alt (pure 7)

/-- Waits once more before it ends with the value. -/
def askOnce (s : Input Nat) (n : Nat) : Run Nat Nat :=
  .await s (fun _ => .done n) fun _ => .done 0

/-- The continuation waits as well: it is asked the prompt's second reply, suspended, and resumed
with the event that the parser has left. -/
theorem continuation_called_once_givenUp : ∃ waited s' prompt',
    (givenUp.outcome nofun 6 ⟨.ofList [1], false, none⟩).passage
      (.script [.handBack, .handBack]) [.chunk [2], .ended] =
        ⟨waited, .done (.success s' 7), prompt', [.ended]⟩ ∧
    (givenUp.exec nofun 6 ⟨.ofList [1], false, none⟩ (fun _ _ => .exhausted) askOnce).passage
      (.script [.handBack, .handBack]) [.chunk [2], .ended] =
        ⟨waited ++ [s'], .done 7, ⟨[], .ended, 2⟩, []⟩ := by
  obtain ⟨waited, s', prompt', hpassage, hprompt⟩ : ∃ waited s' prompt',
      (givenUp.outcome nofun 6 ⟨.ofList [1], false, none⟩).passage
        (.script [.handBack, .handBack]) [.chunk [2], .ended] =
          ⟨waited, .done (.success s' 7), prompt', [.ended]⟩ ∧
      prompt' = ⟨[.handBack], .ended, 1⟩ := ⟨_, _, _, rfl, rfl⟩
  have hnext := (continuation_called_once nofun 6 givenUp ⟨.ofList [1], false, none⟩
    (fun _ _ => .exhausted) askOnce).2 _ _ _ _ _ |>.2.1 _ _ hpassage
  refine ⟨waited, s', prompt', hpassage, ?_⟩
  rw [hnext, hprompt]
  rfl

end Parser

end Piecemeal
