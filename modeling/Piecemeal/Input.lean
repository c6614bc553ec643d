import Piecemeal.Buffer

/-!
# The state of an input stream

An `Input` is an immutable snapshot: keeping an earlier one is all that is needed to go back to it,
except that chunks delivered in the meantime cannot be asked for again. A *checkpoint* therefore
records what arrives after it, and there are two ways to leave one:

* `Input.keep` goes on from the later state,
* `Input.rewind` returns to the earlier state with everything that arrived appended to it,

and both hand the record on to the enclosing checkpoint.
-/

namespace Piecemeal

variable {τ : Type}

/-- The unread part of a stream, as far as it has been delivered. It is closed once the end has been
reported, and `arrived` is the record of the innermost open checkpoint, if there is one. -/
@[ext] structure Input (τ : Type) where
  remaining : Buffer τ
  closed : Bool
  arrived : Option (Buffer τ)
deriving DecidableEq

namespace Input

def ofList (tokens : List τ) (closed : Bool) : Input τ := ⟨.ofList tokens, closed, none⟩

def close (s : Input τ) : Input τ := { s with closed := true }

/-- A delivered chunk goes behind the remaining tokens and on record; an empty one is no delivery.
-/
def receive? (s : Input τ) (chunk : List τ) : Option (Input τ) :=
  if chunk.isEmpty then none
  else
    let chunk := Buffer.ofList chunk
    some { s with remaining := s.remaining ++ chunk, arrived := s.arrived.map (· ++ chunk) }

def checkpoint (s : Input τ) : Input τ := { s with arrived := some .empty }

/-- The record of the checkpoint enclosing `before`, once a checkpoint opened there has reached
`after`. -/
def outerRecord (before after : Input τ) : Option (Buffer τ) :=
  before.arrived.map fun earlier =>
    match after.arrived with
    | none => earlier
    | some later => earlier ++ later

def keep (before after : Input τ) : Input τ := { after with arrived := outerRecord before after }

/-- Returns to `before` from `after`: whatever arrived in the meantime follows the tokens that were
there. -/
def rewind (before after : Input τ) : Input τ where
  remaining := before.remaining ++ after.arrived.getD .empty
  closed := before.closed || after.closed
  arrived := outerRecord before after

theorem receive?_of_ne_nil (s : Input τ) {chunk : List τ} (h : chunk ≠ []) :
    s.receive? chunk = some ⟨s.remaining ++ .ofList chunk, s.closed,
      s.arrived.map (· ++ .ofList chunk)⟩ := by
  cases chunk with
  | nil => exact absurd rfl h
  | cons t rest => rfl

end Input

end Piecemeal
