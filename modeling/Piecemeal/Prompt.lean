import Piecemeal.Run

/-!
# Prompts

A waiting run may be answered on the spot, by a *prompt*, or be handed back to whoever drives it.
`Run.settleWith` lets a prompt answer as long as it does; `Prompt.caller` never does, and running
with it is `Run.settle` (`Run.settleWith_caller`).
-/

namespace Piecemeal

universe u

inductive Reply (τ : Type)
  | chunk (tokens : List τ)
  | ended
  | handBack

/-- Answers waits first by a list of replies in order and then always alike, and counts them. -/
structure Prompt (τ : Type) where
  replies : List (Reply τ)
  afterwards : Reply τ
  asked : Nat

namespace Prompt

variable {τ : Type}

def caller : Prompt τ := ⟨[], .handBack, 0⟩

def script (replies : List (Reply τ)) : Prompt τ := ⟨replies, .ended, 0⟩

def chunks (cs : List (List τ)) : Prompt τ := script (cs.map .chunk)

def ask (p : Prompt τ) : Reply τ × Prompt τ :=
  match p.replies with
  | [] => (p.afterwards, { p with asked := p.asked + 1 })
  | r :: rest => (r, { p with replies := rest, asked := p.asked + 1 })

end Prompt

namespace Run

variable {τ : Type} {ρ : Type u}

/-- Runs until the answer or until the prompt hands control back. -/
def settleWith : Run τ ρ → Prompt τ → Stage τ ρ × Prompt τ
  | .done answer, p => (.done answer, p)
  | .later next, p => (next ()).settleWith p
  | .await input onEnd onChunk, p =>
    match p.ask with
    | (.chunk tokens, p) => (onChunk tokens).settleWith p
    | (.ended, p) => (onEnd ()).settleWith p
    | (.handBack, p) => (.await input onEnd onChunk, p)
  | .exhausted, p => (.exhausted, p)

/-- A prompt that always hands back changes nothing: the run settles as if by itself. -/
theorem settleWith_caller (r : Run τ ρ) (asked : Nat) :
    (r.settleWith ⟨[], .handBack, asked⟩).1 = r.settle := by
  induction r with
  | done answer => rfl
  | later next ih => exact ih ()
  | await input onEnd onChunk => rfl
  | exhausted => rfl

end Run

end Piecemeal
