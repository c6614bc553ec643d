import Piecemeal.Gather
import Piecemeal.Source

/-!
# Streams of records

A decoder applies one parser over and over to a stream, record after record. What a record leaves
unread is where the next one starts; the decoder asks its source for more only when it has nothing
to read or the record under way waits, and it stops when the source is at its end with nothing left
over.

A record that leaves as much as it was given would be found again forever, so it is an error. Hence
every turn of the decoder leaves less to read than there was (`Decoder.unread_lt`), and decoding
ends.

Everything that happens between the decoder, its source and its consumer is written to a log of
`Event`s: the source is asked for the `next` element or reports that it has `ended`, the consumer is
given a `record`, the source is `closed` because it is not needed any more, and the consumer is
`stopped` or an error is `raised`.
-/

namespace Piecemeal

variable {ι : Type} {Γ : ι → Type} {τ α : Type}

inductive StreamError (τ : Type)
  | rejected (report : Rejection τ)
  | fault (message : String)

inductive Event (τ α : Type)
  | next
  | ended
  | record (value : α)
  | closed
  | stopped
  | raised (error : StreamError τ)
  | exhausted

/-- The events of asking a source `pulled` times for an element, and perhaps once for its end. -/
def Event.pulls (pulled : Nat) (ended : Bool) : List (Event τ α) :=
  List.replicate pulled .next ++ if ended then [.ended] else []

/-- A decoder between two records, with what earlier records left unread. -/
structure Decoder (τ : Type) where
  buffered : Buffer τ
  ended : Bool
  source : Source τ

inductive Turn (τ α : Type)
  | record (value : α) (next : Decoder τ)
  | stop
  | raise (error : StreamError τ)
  | exhausted

namespace Decoder

def ofSource (source : Source τ) : Decoder τ := ⟨.empty, false, source⟩

def unread (d : Decoder τ) : Nat := d.buffered.size + d.source.size

def parseRecord (G : Rules Γ τ) (budget : Nat) (p : Parser Γ τ α) (d : Decoder τ) :
    List (Event τ α) × Turn τ α :=
  let drawn := Result.drawFrom 0 0 d.source (p.parseInput G budget ⟨d.buffered, d.ended, none⟩)
  (Event.pulls drawn.pulled drawn.ended,
    match drawn.answer with
    | .error message => .raise (.fault message)
    | .ok none => .exhausted
    | .ok (some (.rejected failure rest)) => .raise (.rejected (.ofFailure failure rest.toList))
    | .ok (some (.accepted value rest)) =>
      if d.buffered.size + drawn.received ≤ rest.size then
        .raise (.rejected (.noProgress rest.toList))
      else .record value ⟨rest, d.ended || drawn.ended, drawn.left⟩)

/-- Asks the source until there is something to read, and then parses one record. -/
def refill (G : Rules Γ τ) (budget : Nat) (p : Parser Γ τ α) (pulled : Nat) :
    Source τ → List (Event τ α) × Turn τ α
  | [] => (Event.pulls pulled true, .stop)
  | .fault message :: _ => (Event.pulls (pulled + 1) false, .raise (.fault message))
  | .chunk tokens :: source =>
    if tokens.isEmpty then refill G budget p (pulled + 1) source
    else
      let (events, turn) := parseRecord G budget p ⟨.ofList tokens, false, source⟩
      (Event.pulls (pulled + 1) false ++ events, turn)

def turn (G : Rules Γ τ) (budget : Nat) (p : Parser Γ τ α) (d : Decoder τ) :
    List (Event τ α) × Turn τ α :=
  if !d.buffered.isEmpty then parseRecord G budget p d
  else if d.ended then ([], .stop)
  else refill G budget p 0 d.source

/-! ## Progress -/

theorem unread_lt_of_parseRecord {G : Rules Γ τ} {budget : Nat} {p : Parser Γ τ α}
    {d next : Decoder τ} {value : α} (h : (parseRecord G budget p d).2 = .record value next) :
    next.unread < d.unread := by
  have hsum := Result.received_add_left d.source 0 0
    (p.parseInput G budget ⟨d.buffered, d.ended, none⟩)
  unfold parseRecord at h
  generalize Result.drawFrom 0 0 d.source _ = drawn at h hsum
  simp only at h
  split at h
  · cases h
  · cases h
  · cases h
  · split at h
    · cases h
    · cases h
      simp only [unread]
      omega

theorem unread_lt_of_refill {G : Rules Γ τ} {budget : Nat} {p : Parser Γ τ α} {pulled : Nat}
    {source : Source τ} {value : α} {next : Decoder τ}
    (h : (refill G budget p pulled source).2 = .record value next) : next.unread < source.size := by
  fun_induction refill G budget p pulled source with
  | case1 => cases h
  | case2 => cases h
  | case3 pulled tokens source hempty ih =>
    rw [Source.size]
    exact Nat.lt_of_lt_of_le (ih h) (Nat.le_add_left _ _)
  | case4 pulled tokens source hempty events turn hrecord =>
    have hturn : (parseRecord G budget p ⟨.ofList tokens, false, source⟩).2 =
        .record value next := by
      rw [hrecord]
      exact h
    simpa [unread, Buffer.size_eq, Source.size, Delivery.size] using unread_lt_of_parseRecord hturn

/-- A decoder that has found a record has less to read than before. -/
theorem unread_lt {G : Rules Γ τ} {budget : Nat} {p : Parser Γ τ α} {d next : Decoder τ}
    {events : List (Event τ α)} {value : α} (h : turn G budget p d = (events, .record value next)) :
    next.unread < d.unread := by
  unfold turn at h
  split at h
  · exact unread_lt_of_parseRecord (congrArg Prod.snd h)
  · split at h
    · cases h
    · exact Nat.lt_of_lt_of_le (unread_lt_of_refill (congrArg Prod.snd h)) (Nat.le_add_left _ _)

/-! ## Decoding -/

/-- The events at the end of a pass: the source is closed, if it can be, and then comes the last
one. -/
def farewell (closable : Bool) (last : Event τ α) : List (Event τ α) :=
  if closable then [.closed, last] else [last]

/-- Decodes record after record until the stream ends, breaks off, or the consumer has had `limit`
records. -/
def decode (G : Rules Γ τ) (budget : Nat) (p : Parser Γ τ α) (closable : Bool) (limit : Option Nat)
    (log : Gather (Event τ α)) (d : Decoder τ) : Gather (Event τ α) :=
  match _h : turn G budget p d with
  | (events, .record value next) =>
    let log := (log.addAll events).add (.record value)
    if limit.any (· ≤ 1) then log.addAll (farewell closable .stopped)
    else decode G budget p closable (limit.map (· - 1)) log next
  | (events, .stop) => (log.addAll events).addAll (farewell closable .stopped)
  | (events, .raise error) => (log.addAll events).addAll (farewell closable (.raised error))
  | (events, .exhausted) => (log.addAll events).add .exhausted
termination_by d.unread
decreasing_by exact unread_lt _h

end Decoder

/-- The log of one pass over a stream of records, for a consumer that may stop after `limit`
records. Only a `closable` source is told when it is not needed any more. -/
def Parser.decodeStream (G : Rules Γ τ) (budget : Nat) (p : Parser Γ τ α) (closable : Bool)
    (limit : Option Nat) (source : Source τ) : List (Event τ α) :=
  (Decoder.decode G budget p closable limit .empty (.ofSource source)).toList

/-- The log of several passes over one stream, each from the beginning of the source. -/
def Parser.decodeAgain (G : Rules Γ τ) (budget : Nat) (p : Parser Γ τ α) (closable : Bool)
    (limit : Option Nat) (source : Source τ) (passes : Nat) : List (Event τ α) :=
  (List.replicate passes (p.decodeStream G budget closable limit source)).flatten

end Piecemeal
