import Piecemeal.Input

/-!
# Runs

A `Run τ ρ` is the behaviour of a computation that reads a stream of tokens `τ` and ends with an
answer in `ρ`. It is a tree: it may be finished, take a silent step, or wait for the stream, and
then it branches on what is delivered; and it is exhausted where it was given too small a budget to
go on. Nothing in a run depends on who delivers, and a waiting run can be resumed any number of
times, each time independently.

`Run.settle` takes the silent steps up to the first node that shows, and `Run.finish` answers every
wait by the end of the stream. Both follow the tree, so they need no bound.
-/

namespace Piecemeal

universe u

inductive Run (τ : Type) (ρ : Type u) : Type u
  | done (answer : ρ)
  | later (next : Unit → Run τ ρ)
  | await (input : Input τ) (onEnd : Unit → Run τ ρ) (onChunk : List τ → Run τ ρ)
  | exhausted

/-- The first node of a run that shows. -/
inductive Stage (τ : Type) (ρ : Type u) : Type u
  | done (answer : ρ)
  | await (input : Input τ) (onEnd : Unit → Run τ ρ) (onChunk : List τ → Run τ ρ)
  | exhausted

namespace Run

variable {τ : Type} {ρ : Type u}

instance : Inhabited (Run τ ρ) := ⟨.exhausted⟩

def settle : Run τ ρ → Stage τ ρ
  | .done answer => .done answer
  | .later next => (next ()).settle
  | .await input onEnd onChunk => .await input onEnd onChunk
  | .exhausted => .exhausted

def finish : Run τ ρ → Option ρ
  | .done answer => some answer
  | .later next => (next ()).finish
  | .await _ onEnd _ => (onEnd ()).finish
  | .exhausted => none

def bind {σ : Type u} (f : ρ → Run τ σ) : Run τ ρ → Run τ σ
  | .done answer => f answer
  | .later next => .later fun _ => (next ()).bind f
  | .await input onEnd onChunk =>
    .await input (fun _ => (onEnd ()).bind f) (fun chunk => (onChunk chunk).bind f)
  | .exhausted => .exhausted

end Run

end Piecemeal
