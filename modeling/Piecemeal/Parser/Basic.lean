import Piecemeal.Failure
import Piecemeal.Input

/-!
# Parsers

A `Parser Γ τ α` is an expression for a parser that reads tokens `τ` and yields a value in `α`. It
may call rules of a grammar by name: `Γ i` is the type of the values of rule `i`, and a grammar
with these rules is a `Rules Γ τ`, which may be recursive in any way.

The primitive expressions look at the input and replace it (`get`, `put`), ask for more of it
(`demandInput` fails where there is none, `wantInput` tells), and combine parsers in sequence, as
alternatives and in loops. An alternative that fails and a `lookAhead` give back what they consumed,
a `label` names the place of the failures that leave a parser, and `total` only marks one. What an
expression does is said once, in `Parser.exec`; all other parsers are built from these.
-/

namespace Piecemeal

/-- A parser expression over the rules `Γ`. -/
inductive Parser {ι : Type} (Γ : ι → Type) (τ : Type) : Type → Type 1
  | pure {α : Type} (value : α) : Parser Γ τ α
  | fail {α : Type} (message : String) : Parser Γ τ α
  | get : Parser Γ τ (Buffer τ)
  | put (tokens : Buffer τ) : Parser Γ τ Unit
  | demandInput : Parser Γ τ Unit
  | wantInput : Parser Γ τ Bool
  | bind {α β : Type} (p : Parser Γ τ β) (f : β → Parser Γ τ α) : Parser Γ τ α
  | alt {α : Type} (left right : Parser Γ τ α) : Parser Γ τ α
  | lookAhead {α : Type} (p : Parser Γ τ α) : Parser Γ τ α
  | label {α : Type} (p : Parser Γ τ α) (name : String) : Parser Γ τ α
  | loop {σ α : Type} (start : σ) (body : σ → Parser Γ τ (σ ⊕ α)) : Parser Γ τ α
  | rule (i : ι) : Parser Γ τ (Γ i)
  | total {α : Type} (p : Parser Γ τ α) : Parser Γ τ α

abbrev Rules {ι : Type} (Γ : ι → Type) (τ : Type) : Type 1 := ∀ i, Parser Γ τ (Γ i)

namespace Parser

variable {ι : Type} {Γ : ι → Type} {τ α β : Type}

def map (f : α → β) (p : Parser Γ τ α) : Parser Γ τ β := p.bind fun a => .pure (f a)

instance : Monad (Parser Γ τ) where
  pure := .pure
  bind := .bind
  map := .map

def andThen (p : Parser Γ τ α) (q : Parser Γ τ β) : Parser Γ τ β := p.bind fun _ => q

def followedBy (p : Parser Γ τ α) (q : Parser Γ τ β) : Parser Γ τ α :=
  p.bind fun a => q.map fun _ => a

def between {γ : Type} (opening : Parser Γ τ β) (closing : Parser Γ τ γ) (p : Parser Γ τ α) :
    Parser Γ τ α :=
  opening.andThen (p.followedBy closing)

/-- Whether a parser is marked as one that never fails. Combining parsers drops the mark. -/
def isTotal : Parser Γ τ α → Bool
  | .pure _ | .get | .put _ | .wantInput | .total _ => true
  | _ => false

end Parser

end Piecemeal
