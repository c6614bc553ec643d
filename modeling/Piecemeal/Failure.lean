/-!
# Failures

A `Failure` says what went wrong and, by the labels around it, where. `Rejection` is the report a
caller gets when a stream could not be decoded, with the input left unread.
-/

namespace Piecemeal

/-- A failed parse: labels of the parsers around the failing one, innermost first, and a message. -/
structure Failure where
  context : List String
  message : String
deriving DecidableEq, Repr

namespace Failure

/-- The stream ended where more input was demanded. -/
def notEnoughInput : Failure := ⟨["demand-input"], "not enough input"⟩

/-- Adds the name of an enclosing parser, outside the names already there. -/
def within (name : String) (f : Failure) : Failure := { f with context := f.context ++ [name] }

end Failure

/-- A failure as reported to the consumer of a stream, with the tokens that were left unread. -/
structure Rejection (τ : Type) where
  context : List String
  reason : String
  rest : List τ
deriving DecidableEq, Repr

namespace Rejection

variable {τ : Type}

def ofFailure (f : Failure) (rest : List τ) : Rejection τ := ⟨f.context, f.message, rest⟩

/-- A record that consumes nothing would be found again forever. -/
def noProgress (rest : List τ) : Rejection τ :=
  ⟨[], "parser succeeded without consuming input", rest⟩

/-- One line: the labels from the innermost outwards, then the reason. -/
def describe (r : Rejection τ) : String :=
  if r.context.isEmpty then r.reason
  else String.intercalate " < " r.context ++ ": " ++ r.reason

end Rejection

end Piecemeal
