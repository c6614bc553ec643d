import Piecemeal.Parser.Basic

/-!
# Alternatives
-/

namespace Piecemeal.Parser

variable {ι : Type} {Γ : ι → Type} {τ α : Type}

/-- The first of the parsers that succeeds, each tried from the same place. A choice of one parser
is that parser. -/
def choice : List (Parser Γ τ α) → Parser Γ τ α
  | [] => fail "choice"
  | [p] => p
  | p :: q :: rest => p.alt (choice (q :: rest))

/-- A parser, or `fallback` without consuming anything where it fails. -/
def option (fallback : α) (p : Parser Γ τ α) : Parser Γ τ α := p.alt (pure fallback)

/-- The value of a parser, or none without consuming anything where it fails. -/
def optional (p : Parser Γ τ α) : Parser Γ τ (Option α) := (p.map some).option none

end Piecemeal.Parser
