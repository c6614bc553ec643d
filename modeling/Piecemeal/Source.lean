import Piecemeal.Parse

/-!
# Sources

A source delivers the chunks of a stream one at a time, when asked. It may raise a fault in place
of a chunk, and after its last element it reports the end of the stream. `Result.drawFrom` feeds a
parse from a source, asking only as long as the parse waits, and keeps count: of the elements
`pulled`, the tokens `received` with them, and whether the source has reported the end.
-/

namespace Piecemeal

variable {ι : Type} {Γ : ι → Type} {τ α : Type}

inductive Delivery (τ : Type)
  | chunk (tokens : List τ)
  | fault (message : String)

abbrev Source (τ : Type) := List (Delivery τ)

def Delivery.size : Delivery τ → Nat
  | chunk tokens => tokens.length
  | fault _ => 0

def Source.size : Source τ → Nat
  | [] => 0
  | d :: source => d.size + Source.size source

/-- How a parse was fed from a source. The answer is the verdict, or the message of the fault that
came before it; there is no verdict only if the budget ran out. -/
structure Drawn (τ α : Type) where
  answer : Except String (Option (Verdict τ α))
  pulled : Nat
  received : Nat
  ended : Bool
  left : Source τ

/-- Feeds a parse that has already had `pulled` elements with `received` tokens from this source. -/
def Result.drawFrom (pulled received : Nat) : Source τ → Result τ α → Drawn τ α
  | left, .done verdict => ⟨.ok (some verdict), pulled, received, false, left⟩
  | left, .exhausted => ⟨.ok none, pulled, received, false, left⟩
  | [], .await _ onEnd _ => ⟨.ok (onEnd ()).finish, pulled, received, true, []⟩
  | .fault message :: left, .await _ _ _ => ⟨.error message, pulled + 1, received, false, left⟩
  | .chunk tokens :: left, .await _ _ onChunk =>
    drawFrom (pulled + 1) (received + tokens.length) left (onChunk tokens).settle

/-- Tokens are received or left over, and none is both. -/
theorem Result.received_add_left (source : Source τ) (pulled received : Nat) (r : Result τ α) :
    (r.drawFrom pulled received source).received +
      (r.drawFrom pulled received source).left.size = received + source.size := by
  fun_induction Result.drawFrom pulled received source r with
  | case5 pulled received tokens left _ _ onChunk ih =>
    rw [ih, Source.size, Delivery.size]
    omega
  | _ => simp [Source.size, Delivery.size]

def Parser.parseStream (G : Rules Γ τ) (budget : Nat) (p : Parser Γ τ α) (source : Source τ) :
    Drawn τ α :=
  (p.parse G budget []).drawFrom 0 0 source

end Piecemeal
