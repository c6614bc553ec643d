import Piecemeal.Parser.Basic

/-!
# Single tokens and blocks of known length

These parsers first make sure that the tokens they decide on are there, and consume only once they
have decided, so they consume nothing where they fail.
-/

namespace Piecemeal.Parser

variable {ι : Type} {Γ : ι → Type} {τ : Type}

/-- The unconsumed input, once it holds at least `n` tokens. -/
def ensure (n : Int) : Parser Γ τ (Buffer τ) :=
  loop () fun _ => do
    let input ← get
    if n ≤ input.size then return .inr input
    demandInput
    return .inl ()

/-- One token that satisfies `p`. -/
def satisfy (p : τ → Bool) : Parser Γ τ τ := do
  let input ← ensure 1
  match input.uncons? with
  | some (t, rest) =>
    if p t then map (fun _ => t) (put rest) else fail "satisfy?"
  | none => fail "satisfy?"

/-- Passes over one token that satisfies `p`. -/
def skip (p : τ → Bool) : Parser Γ τ Unit := do
  let input ← ensure 1
  match input.uncons? with
  | some (t, rest) => if p t then put rest else fail "skip"
  | none => fail "skip"

def anyToken : Parser Γ τ τ := satisfy fun _ => true

/-- A block of `n` tokens, if `p` accepts it as a whole. -/
def takeWith (n : Int) (p : List τ → Bool) : Parser Γ τ (List τ) := do
  let input ← ensure n
  let (block, rest) := input.splitAt n.toNat
  if p block then map (fun _ => block) (put rest) else fail "take-with"

def take (n : Int) : Parser Γ τ (List τ) := takeWith n fun _ => true

end Piecemeal.Parser
