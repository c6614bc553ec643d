import Piecemeal.Gather
import Piecemeal.Parser.Choice

/-!
# Repetition

Each loop leaves its checkpoint after every element, so an element that fails gives back only what
that one attempt consumed.
-/

namespace Piecemeal.Parser

variable {ι : Type} {Γ : ι → Type} {τ α β : Type}

/-- As many elements as there are, up to the first failure. -/
def many (p : Parser Γ τ α) : Parser Γ τ (List α) :=
  map Gather.toList <| loop Gather.empty fun found => do
    match ← optional p with
    | some a => return .inl (found.add a)
    | none => return .inr found

def many1 (p : Parser Γ τ α) : Parser Γ τ (List α) := do
  let first ← p
  map (first :: ·) (many p)

def skipMany (p : Parser Γ τ α) : Parser Γ τ Unit :=
  loop () fun _ => do
    match ← optional p with
    | some _ => return .inl ()
    | none => return .inr ()

def skipMany1 (p : Parser Γ τ α) : Parser Γ τ Unit := p.andThen (skipMany p)

/-- At least one element, with a separator between any two. A separator that no element follows is
given back. -/
def sepBy1 (p : Parser Γ τ α) (separator : Parser Γ τ β) : Parser Γ τ (List α) := do
  let first ← p
  map (first :: ·) (many (separator.andThen p))

def sepBy (p : Parser Γ τ α) (separator : Parser Γ τ β) : Parser Γ τ (List α) :=
  option [] (sepBy1 p separator)

/-- Elements up to the first place where `terminator` succeeds, which is consumed as well. -/
def manyTill (p : Parser Γ τ α) (terminator : Parser Γ τ β) : Parser Γ τ (List α) :=
  map Gather.toList <| loop Gather.empty fun found =>
    alt (terminator.map fun _ => .inr found) (p.map fun a => .inl (found.add a))

/-- Runs `p` another `n` times. -/
def countFrom (p : Parser Γ τ α) : Nat → Gather α → Parser Γ τ (Gather α)
  | 0, found => pure found
  | n + 1, found => do
    let a ← p
    countFrom p n (found.add a)

/-- Exactly `n` elements, none where `n` is negative. -/
def count (n : Int) (p : Parser Γ τ α) : Parser Γ τ (List α) :=
  map Gather.toList (countFrom p n.toNat .empty)

end Piecemeal.Parser
