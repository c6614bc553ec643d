import Piecemeal.Parser.Basic
import Piecemeal.Run

/-!
# What parsers do

`Parser.exec` gives every parser expression its behaviour, in continuation-passing style: it is
handed a state of the input and what to do after a failure and after a success, and answers with a
`Run`. Every call of a continuation is a silent step, so the depth of the computation does not grow
with the length of the input.

Grammars may be recursive and loops need not end, so `exec` is given a *budget*, which bounds how
deep expressions are unfolded along a run. A run that would go deeper ends in `Run.exhausted`; a
parse that does not reach that point does not depend on the budget.
-/

namespace Piecemeal

universe u

variable {ι : Type} {Γ : ι → Type} {τ : Type} {ρ : Type u}

/-- Waits for a chunk, and waits again when an empty one is delivered. -/
def request (s : Input τ) (onEnd onChunk : Input τ → Run τ ρ) : Nat → Run τ ρ
  | 0 => .exhausted
  | budget + 1 =>
    .await s (fun _ => .later fun _ => onEnd s.close) fun chunk =>
      match s.receive? chunk with
      | none => .later fun _ => request s onEnd onChunk budget
      | some next => .later fun _ => onChunk next

namespace Parser

/-- Runs a parser on the input `s` under the rules `G`, going on with `ko` after a failure and with
`ok` after a success. -/
def exec (G : Rules Γ τ) : Nat → {α : Type} → Parser Γ τ α → (s : Input τ) →
    (ko : Input τ → Failure → Run τ ρ) → (ok : Input τ → α → Run τ ρ) → Run τ ρ
  | 0, _, _, _, _, _ => .exhausted
  | _ + 1, _, .pure value, s, _, ok => .later fun _ => ok s value
  | _ + 1, _, .fail message, s, ko, _ => .later fun _ => ko s ⟨[], message⟩
  | _ + 1, _, .get, s, _, ok => .later fun _ => ok s s.remaining
  | _ + 1, _, .put tokens, s, _, ok => .later fun _ => ok { s with remaining := tokens } ()
  | budget + 1, _, .demandInput, s, ko, ok =>
    if s.closed then .later fun _ => ko s .notEnoughInput
    else request s (fun s => ko s .notEnoughInput) (fun s => ok s ()) budget
  | budget + 1, _, .wantInput, s, _, ok =>
    if !s.remaining.isEmpty then .later fun _ => ok s true
    else if s.closed then .later fun _ => ok s false
    else request s (fun s => ok s false) (fun s => ok s true) budget
  | budget + 1, _, .bind p f, s, ko, ok =>
    exec G budget p s ko fun s a => .later fun _ => exec G budget (f a) s ko ok
  | budget + 1, _, .alt left right, s, ko, ok =>
    exec G budget left s.checkpoint
      (fun after _ => .later fun _ => exec G budget right (s.rewind after) ko ok)
      (fun after a => .later fun _ => ok (s.keep after) a)
  | budget + 1, _, .lookAhead p, s, ko, ok =>
    exec G budget p s.checkpoint
      (fun after failure => .later fun _ => ko (s.rewind after) failure)
      (fun after a => .later fun _ => ok (s.rewind after) a)
  | budget + 1, _, .label p name, s, ko, ok =>
    exec G budget p s (fun s failure => .later fun _ => ko s (failure.within name)) ok
  | budget + 1, _, .loop start body, s, ko, ok =>
    exec G budget (body start) s ko fun s turn =>
      match turn with
      | .inl next => .later fun _ => exec G budget (.loop next body) s ko ok
      | .inr a => .later fun _ => ok s a
  | budget + 1, _, .rule i, s, ko, ok => .later fun _ => exec G budget (G i) s ko ok
  | budget + 1, _, .total p, s, ko, ok => exec G budget p s ko ok

end Parser

/-- How a parser leaves the input, and with what. -/
inductive Outcome (τ α : Type)
  | failure (input : Input τ) (reason : Failure)
  | success (input : Input τ) (value : α)

namespace Parser

variable {α : Type}

/-- Runs a parser and reports its outcome. -/
def outcome (G : Rules Γ τ) (budget : Nat) (p : Parser Γ τ α) (s : Input τ) :
    Run τ (Outcome τ α) :=
  p.exec G budget s (fun s reason => .done (.failure s reason)) (fun s a => .done (.success s a))

end Parser

end Piecemeal
