import Piecemeal.Proofs.Budget
import Piecemeal.Reading

/-!
# Running a parser and reading with it

On complete input nothing is ever waited for, and what a run comes to is what `Parser.read` says
directly, budget by budget (`finish_outcome`, `parseAll_eq_read`): a failed alternative is rewound
to the very input it started from, since nothing can have arrived. As a run that has come to an
answer keeps it under a larger budget, so does a reading (`read_mono`).
-/

namespace Piecemeal

variable {ι : Type} {Γ : ι → Type} {τ α β ρ σ : Type}

/-! ## From runs to readings -/

theorem Run.finish_bind (r : Run τ ρ) (f : ρ → Run τ σ) :
    (r.bind f).finish = r.finish.bind fun a => (f a).finish := by
  induction r with
  | done a => rfl
  | later next ih => exact ih ()
  | await input onEnd onChunk ihEnd _ => exact ihEnd ()
  | exhausted => rfl

namespace Reading

def verdict : Reading τ α → Verdict τ α
  | success a rest => .accepted a (.ofList rest)
  | failure e rest => .rejected e (.ofList rest)

/-- The outcome of a parser that reads the input `s`. -/
def outcome (s : Input τ) : Reading τ α → Outcome τ α
  | success a rest => .success { s with remaining := .ofList rest } a
  | failure e rest => .failure { s with remaining := .ofList rest } e

theorem verdict_outcome (s : Input τ) (r : Reading τ α) : (r.outcome s).verdict = r.verdict := by
  cases r <;> rfl

theorem verdict_injective {r r' : Reading τ α} (h : r.verdict = r'.verdict) : r = r' := by
  cases r with
  | success a rest =>
    cases r' with
    | success a' rest' =>
      rw [verdict, verdict, Verdict.accepted.injEq] at h
      rw [h.1, Buffer.ofList_injective h.2]
    | failure => cases h
  | failure e rest =>
    cases r' with
    | success => cases h
    | failure e' rest' =>
      rw [verdict, verdict, Verdict.rejected.injEq] at h
      rw [h.1, Buffer.ofList_injective h.2]

theorem outcome_success_self (s : Input τ) (a : α) :
    (success a s.remaining.toList).outcome s = .success s a := by
  simp only [outcome, Buffer.ofList_toList]

theorem outcome_failure_self (s : Input τ) (e : Failure) :
    (failure e s.remaining.toList : Reading τ α).outcome s = .failure s e := by
  simp only [outcome, Buffer.ofList_toList]

@[simp] theorem outcome_remaining (s : Input τ) (tokens : Buffer τ) (r : Reading τ α) :
    r.outcome { s with remaining := tokens } = r.outcome s := by
  cases r <;> rfl

end Reading

/-- Going back to a closed input gives that input: nothing can have arrived. -/
theorem Input.rewind_checkpoint (s : Input τ) (tokens : Buffer τ) :
    s.rewind { s.checkpoint with remaining := tokens } = s := by
  ext1 <;> simp [rewind, checkpoint, outerRecord]

theorem Input.keep_checkpoint (s : Input τ) (tokens : Buffer τ) :
    s.keep { s.checkpoint with remaining := tokens } = { s with remaining := tokens } := by
  ext1 <;> simp [keep, checkpoint, outerRecord]

namespace Parser

theorem finish_outcome (G : Rules Γ τ) (budget : Nat) (p : Parser Γ τ α) {s : Input τ}
    (hs : s.closed = true) :
    (p.outcome G budget s).finish = (p.read G budget s.remaining.toList).map (·.outcome s) := by
  induction budget generalizing α s with
  | zero => rfl
  | succ budget ih =>
    have onward : ∀ {α : Type} (p : Parser Γ τ α) (rest : List τ),
        (p.outcome G budget { s with remaining := .ofList rest }).finish =
          (p.read G budget rest).map (·.outcome s) := by
      intro α p rest
      have h := ih p (s := { s with remaining := .ofList rest }) hs
      simpa only [Buffer.toList_ofList, Reading.outcome_remaining] using h
    have under : ∀ {α : Type} (p : Parser Γ τ α), (p.outcome G budget s.checkpoint).finish =
        (p.read G budget s.remaining.toList).map (·.outcome s.checkpoint) :=
      fun p => ih p (s := s.checkpoint) hs
    cases p with
    | pure value =>
      rw [read, Option.map_some, Reading.outcome_success_self]
      rfl
    | fail message =>
      rw [read, Option.map_some, Reading.outcome_failure_self]
      rfl
    | get =>
      rw [read, Option.map_some, Reading.outcome_success_self, Buffer.ofList_toList]
      rfl
    | put tokens =>
      simp only [outcome_put, read, Run.finish, Option.map_some, Reading.outcome,
        Buffer.ofList_toList]
    | demandInput =>
      rw [outcome_demandInput, if_pos hs, read, Option.map_some, Reading.outcome_failure_self]
      rfl
    | wantInput =>
      rw [outcome_wantInput, read, Option.map_some, Reading.outcome_success_self,
        ← Buffer.isEmpty_eq, if_pos hs]
      cases s.remaining.isEmpty <;> rfl
    | bind p f =>
      rw [outcome_bind, Run.finish_bind, ih p hs, read]
      cases read G budget p s.remaining.toList with
      | none => rfl
      | some r =>
        cases r with
        | failure e rest => rfl
        | success b rest => exact onward (f b) rest
    | alt p q =>
      rw [outcome_alt, Run.finish_bind, under p, read]
      cases read G budget p s.remaining.toList with
      | none => rfl
      | some r =>
        cases r with
        | failure e rest =>
          change (q.outcome G budget (s.rewind _)).finish = _
          rw [s.rewind_checkpoint]
          exact ih q hs
        | success a rest =>
          change some (Outcome.success (s.keep _) a) = _
          rw [s.keep_checkpoint]
          rfl
    | lookAhead p =>
      rw [outcome_lookAhead, Run.finish_bind, under p, read]
      cases read G budget p s.remaining.toList with
      | none => rfl
      | some r =>
        cases r with
        | failure e rest =>
          change some (Outcome.failure (s.rewind _) e) =
            some ((Reading.failure e s.remaining.toList).outcome s)
          rw [s.rewind_checkpoint, Reading.outcome_failure_self]
        | success a rest =>
          change some (Outcome.success (s.rewind _) a) =
            some ((Reading.success a s.remaining.toList).outcome s)
          rw [s.rewind_checkpoint, Reading.outcome_success_self]
    | label p name =>
      rw [outcome_label, Run.finish_bind, ih p hs, read]
      cases read G budget p s.remaining.toList with
      | none => rfl
      | some r => cases r <;> rfl
    | loop start body =>
      rw [outcome_loop, Run.finish_bind, ih (body start) hs, read]
      cases read G budget (body start) s.remaining.toList with
      | none => rfl
      | some r =>
        cases r with
        | failure e rest => rfl
        | success turn rest =>
          cases turn with
          | inl next => exact onward (.loop next body) rest
          | inr a => rfl
    | rule i => exact ih (G i) hs
    | total p => exact ih p hs

theorem parseAll_eq_read (G : Rules Γ τ) (budget : Nat) (p : Parser Γ τ α) (tokens : List τ) :
    p.parseAll G budget tokens = (p.read G budget tokens).map Reading.verdict := by
  rw [parseAll, start_eq, Run.finish, Run.finish_bind, finish_outcome G budget p rfl]
  simp only [Input.ofList, Buffer.toList_ofList, Run.finish]
  cases p.read G budget tokens with
  | none => rfl
  | some r => exact congrArg some (r.verdict_outcome _)

theorem read_mono {G : Rules Γ τ} {budget budget' : Nat} {p : Parser Γ τ α} {tokens : List τ}
    {r : Reading τ α} (hle : budget ≤ budget') (h : p.read G budget tokens = some r) :
    p.read G budget' tokens = some r := by
  have hfinish : (p.outcome G budget (.ofList tokens true)).finish =
      some (r.outcome (.ofList tokens true)) := by
    rw [finish_outcome G budget p rfl, Input.ofList, Buffer.toList_ofList, h]
    rfl
  replace hfinish := (below_outcome G p _ hle).finish hfinish
  rw [finish_outcome G budget' p rfl, Input.ofList, Buffer.toList_ofList] at hfinish
  obtain ⟨r', hr', he⟩ := Option.map_eq_some_iff.mp hfinish
  have hv := congrArg Outcome.verdict he
  rw [Reading.verdict_outcome, Reading.verdict_outcome] at hv
  rw [hr', Reading.verdict_injective hv]

end Parser

end Piecemeal
