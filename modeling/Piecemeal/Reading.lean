import Piecemeal.Parser.Basic

/-!
# Parsers on complete input

What a parser makes of a list of tokens after which nothing follows, said directly: no
continuations, no checkpoints, and no waiting. A failed alternative starts over from the same list,
looking ahead gives back the list it was given, and asking for more than there is fails.

The budget bounds how deep expressions are unfolded, as for `Parser.exec`.
-/

namespace Piecemeal

variable {ι : Type} {Γ : ι → Type} {τ α β : Type}

/-- What a parser makes of a list of tokens, and what it leaves of it. -/
inductive Reading (τ α : Type)
  | success (value : α) (rest : List τ)
  | failure (reason : Failure) (rest : List τ)
deriving DecidableEq

namespace Reading

/-- Goes on from a success. -/
def andThen (r : Reading τ α) (f : α → List τ → Option (Reading τ β)) : Option (Reading τ β) :=
  match r with
  | success value rest => f value rest
  | failure reason rest => some (failure reason rest)

/-- Goes on from a failure. -/
def orElse (r : Reading τ α) (f : Unit → Option (Reading τ α)) : Option (Reading τ α) :=
  match r with
  | success value rest => some (success value rest)
  | failure _ _ => f ()

/-- Gives back `tokens`, however much was consumed. -/
def returning (tokens : List τ) : Reading τ α → Reading τ α
  | success value _ => success value tokens
  | failure reason _ => failure reason tokens

/-- Names the place of a failure. -/
def within (name : String) : Reading τ α → Reading τ α
  | success value rest => success value rest
  | failure reason rest => failure (reason.within name) rest

end Reading

namespace Parser

/-- Reads a complete list of tokens under the rules `G`; there is no answer only if the budget runs
out. -/
def read (G : Rules Γ τ) : Nat → {α : Type} → Parser Γ τ α → List τ → Option (Reading τ α)
  | 0, _, _, _ => none
  | _ + 1, _, .pure value, tokens => some (.success value tokens)
  | _ + 1, _, .fail message, tokens => some (.failure ⟨[], message⟩ tokens)
  | _ + 1, _, .get, tokens => some (.success (.ofList tokens) tokens)
  | _ + 1, _, .put replacement, _ => some (.success () replacement.toList)
  | _ + 1, _, .demandInput, tokens => some (.failure .notEnoughInput tokens)
  | _ + 1, _, .wantInput, tokens => some (.success (!tokens.isEmpty) tokens)
  | budget + 1, _, .bind p f, tokens =>
    (read G budget p tokens).bind (·.andThen fun a rest => read G budget (f a) rest)
  | budget + 1, _, .alt left right, tokens =>
    (read G budget left tokens).bind (·.orElse fun _ => read G budget right tokens)
  | budget + 1, _, .lookAhead p, tokens => (read G budget p tokens).map (·.returning tokens)
  | budget + 1, _, .label p name, tokens => (read G budget p tokens).map (·.within name)
  | budget + 1, _, .loop start body, tokens =>
    (read G budget (body start) tokens).bind (·.andThen fun turn rest =>
      match turn with
      | .inl next => read G budget (.loop next body) rest
      | .inr a => some (.success a rest))
  | budget + 1, _, .rule i, tokens => read G budget (G i) tokens
  | budget + 1, _, .total p, tokens => read G budget p tokens

end Parser

end Piecemeal
