import Piecemeal.Exec
import Piecemeal.Prompt

/-!
# Parsing a stream

`Parser.parse` starts a parser on the first tokens of a stream. The result is a verdict, or a
suspended parse that shows the state of its input. `Result.feed` hands a suspended parse its next
chunk and `Result.finish` tells it that there are no more; neither changes the result it is given,
so one suspended parse can be continued in several ways.
-/

namespace Piecemeal

variable {ι : Type} {Γ : ι → Type} {τ α : Type}

/-- The end of a parse, with the tokens left unread. -/
inductive Verdict (τ α : Type)
  | accepted (value : α) (rest : Buffer τ)
  | rejected (failure : Failure) (rest : Buffer τ)

namespace Verdict

def rest : Verdict τ α → Buffer τ
  | accepted _ rest | rejected _ rest => rest

/-- Input that comes after the verdict stays unread. -/
def extend (chunk : List τ) : Verdict τ α → Verdict τ α
  | accepted value rest => accepted value (rest ++ .ofList chunk)
  | rejected failure rest => rejected failure (rest ++ .ofList chunk)

end Verdict

abbrev Parse (τ α : Type) := Run τ (Verdict τ α)

/-- A verdict, or a parse that waits for more of the stream. -/
abbrev Result (τ α : Type) := Stage τ (Verdict τ α)

namespace Result

def feed (chunk : List τ) : Result τ α → Result τ α
  | .done verdict => .done (verdict.extend chunk)
  | .await _ _ onChunk => (onChunk chunk).settle
  | .exhausted => .exhausted

/-- Tells a suspended parse that no more is coming. There is no answer only if the budget ran out.
-/
def finish : Result τ α → Option (Verdict τ α)
  | .done verdict => some verdict
  | .await _ onEnd _ => (onEnd ()).finish
  | .exhausted => none

/-- Hands over one more chunk and lets a prompt answer what the parse asks for after that. -/
def feedWith (prompt : Prompt τ) (chunk : List τ) : Result τ α → Result τ α × Prompt τ
  | .done verdict => (.done (verdict.extend chunk), prompt)
  | .await _ _ onChunk => (onChunk chunk).settleWith prompt
  | .exhausted => (.exhausted, prompt)

end Result

namespace Parser

/-- A parser run for its verdict. -/
def start (G : Rules Γ τ) (budget : Nat) (p : Parser Γ τ α) (s : Input τ) : Parse τ α :=
  .later fun _ => p.exec G budget s
    (fun s failure => .done (.rejected failure s.remaining))
    (fun s value => .done (.accepted value s.remaining))

def parseInput (G : Rules Γ τ) (budget : Nat) (p : Parser Γ τ α) (s : Input τ) : Result τ α :=
  (p.start G budget s).settle

/-- Parses the first tokens of a stream, of which more may follow. -/
def parse (G : Rules Γ τ) (budget : Nat) (p : Parser Γ τ α) (tokens : List τ) : Result τ α :=
  p.parseInput G budget (.ofList tokens false)

def parseAll (G : Rules Γ τ) (budget : Nat) (p : Parser Γ τ α) (tokens : List τ) :
    Option (Verdict τ α) :=
  (p.start G budget (.ofList tokens true)).finish

/-- Parses chunks taken one by one as they are needed. The answer comes with the number of chunks
taken. -/
def parseChunks (G : Rules Γ τ) (budget : Nat) (p : Parser Γ τ α) (chunks : List (List τ)) :
    Option (Verdict τ α) × Nat :=
  let (result, prompt) := (p.start G budget (.ofList [] false)).settleWith (.chunks chunks)
  (Result.finish result, chunks.length - prompt.replies.length)

end Parser

end Piecemeal
