import Piecemeal.Gather
import Piecemeal.Parser.Choice

/-!
# Runs of tokens and the end of the stream

A scan that comes to the end of what has arrived asks whether the stream goes on and carries on with
the next chunk, so that it finds the same run however the stream is cut.
-/

namespace Piecemeal.Parser

variable {ι : Type} {Γ : ι → Type} {τ : Type}

/-! ## Runs -/

/-- Passes over the longest run of tokens that satisfy `p`. -/
def skipWhile (p : τ → Bool) : Parser Γ τ Unit :=
  total <| loop () fun _ => do
    let input ← get
    let rest := input.dropWhile p
    put rest
    if rest.isEmpty then
      if ← wantInput then return .inl () else return .inr ()
    else return .inr ()

/-- The longest run of tokens that satisfy `p`, which may be empty. -/
def takeWhile (p : τ → Bool) : Parser Γ τ (List τ) :=
  total <| map (fun fragments => fragments.toList.flatten) <|
    loop Gather.empty fun fragments => do
      let input ← get
      let (run, rest) := input.span p
      let fragments := fragments.add run
      put rest
      if rest.isEmpty then
        if ← wantInput then return .inl fragments else return .inr fragments
      else return .inr fragments

/-- The tokens before the first one that satisfies `p`. -/
def takeTill (p : τ → Bool) : Parser Γ τ (List τ) := takeWhile fun t => !p t

/-- The longest run of tokens that satisfy `p`; fails and consumes nothing where that is empty. -/
def takeWhile1 (p : τ → Bool) : Parser Γ τ (List τ) := do
  let buffered ← get
  andThen (if buffered.isEmpty then demandInput else pure ()) do
  let input ← get
  let (run, rest) := input.span p
  if run.isEmpty then fail "take-while1"
  else
    put rest
    if rest.isEmpty then map (run ++ ·) (takeWhile p) else return run

/-- All the rest of the stream: what has arrived and then each chunk, in order of delivery. -/
def takeRest : Parser Γ τ (List (List τ)) :=
  total <| map Gather.toList <| loop Gather.empty fun chunks => do
    if ← wantInput then
      let input ← get
      put .empty
      return .inl (chunks.add input.toList)
    else return .inr chunks

/-! ## The end of the stream -/

/-- Succeeds at the end of the stream and consumes nothing. Where nothing has arrived the answer is
not known yet: this asks for a chunk, which stays in the input if one comes. -/
def endOfInput : Parser Γ τ Unit := do
  let input ← get
  if input.isEmpty then
    if ← option false (map (fun _ => true) demandInput) then fail "end-of-input"
  else fail "end-of-input"

/-- Whether the stream is at its end; it never fails. -/
def atEnd : Parser Γ τ Bool := total (map (! ·) wantInput)

end Piecemeal.Parser
