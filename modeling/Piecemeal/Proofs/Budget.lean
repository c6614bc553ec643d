import Piecemeal.Proofs.Outcome

/-!
# Larger budgets

`r.Below r'` says that `r'` behaves like `r`, except perhaps where `r` is exhausted. Runs with a
larger budget are above those with a smaller one (`below_outcome`), so an answer, once there is one,
does not depend on the budget (`Below.finish`).
-/

namespace Piecemeal

variable {ι : Type} {Γ : ι → Type} {τ α ρ σ : Type}

namespace Run

inductive Below : Run τ ρ → Run τ ρ → Prop
  | exhausted (r : Run τ ρ) : Below .exhausted r
  | done (a : ρ) : Below (.done a) (.done a)
  | later {next next' : Unit → Run τ ρ} (h : Below (next ()) (next' ())) :
      Below (.later next) (.later next')
  | await {input : Input τ} {onEnd onEnd' : Unit → Run τ ρ} {onChunk onChunk' : List τ → Run τ ρ}
      (hend : Below (onEnd ()) (onEnd' ()))
      (hchunk : ∀ tokens, Below (onChunk tokens) (onChunk' tokens)) :
      Below (.await input onEnd onChunk) (.await input onEnd' onChunk')

theorem below_refl (r : Run τ ρ) : r.Below r := by
  induction r with
  | done a => exact .done a
  | later next ih => exact .later (ih ())
  | await input onEnd onChunk ihEnd ihChunk => exact .await (ihEnd ()) ihChunk
  | exhausted => exact .exhausted _

theorem Below.bind {r r' : Run τ ρ} {f f' : ρ → Run τ σ} (h : r.Below r')
    (hf : ∀ a, (f a).Below (f' a)) : (r.bind f).Below (r'.bind f') := by
  induction h with
  | exhausted r => exact .exhausted _
  | done a => exact hf a
  | later _ ih => exact .later ih
  | await _ _ ihEnd ihChunk => exact .await ihEnd ihChunk

theorem Below.finish {r r' : Run τ ρ} (h : r.Below r') {a : ρ} (ha : r.finish = some a) :
    r'.finish = some a := by
  induction h with
  | exhausted r => cases ha
  | done a => exact ha
  | later _ ih => exact ih ha
  | await _ _ ihEnd _ => exact ihEnd ha

end Run

theorem below_request {s : Input τ} {onEnd onChunk : Input τ → Run τ ρ} {budget budget' : Nat}
    (hle : budget ≤ budget') :
    (request s onEnd onChunk budget).Below (request s onEnd onChunk budget') := by
  induction budget generalizing budget' with
  | zero => exact .exhausted _
  | succ budget ih =>
    obtain ⟨budget', rfl⟩ : ∃ n, budget' = n + 1 := ⟨budget' - 1, by omega⟩
    refine .await (.later (Run.below_refl _)) fun tokens => ?_
    cases h : s.receive? tokens with
    | none => simpa only [h] using .later (ih (by omega))
    | some next => simpa only [h] using .later (Run.below_refl _)

namespace Parser

open Run in
theorem below_outcome (G : Rules Γ τ) (p : Parser Γ τ α) (s : Input τ) {budget budget' : Nat}
    (hle : budget ≤ budget') : (p.outcome G budget s).Below (p.outcome G budget' s) := by
  induction budget generalizing α s budget' with
  | zero => exact .exhausted _
  | succ budget ih =>
    obtain ⟨budget', rfl⟩ : ∃ n, budget' = n + 1 := ⟨budget' - 1, by omega⟩
    have hle' : budget ≤ budget' := by omega
    cases p with
    | pure value => exact .later (.done _)
    | fail message => exact .later (.done _)
    | get => exact .later (.done _)
    | put tokens => exact .later (.done _)
    | demandInput =>
      rw [outcome_demandInput, outcome_demandInput]
      split
      · exact .later (.done _)
      · exact below_request hle'
    | wantInput =>
      rw [outcome_wantInput, outcome_wantInput]
      split
      · exact .later (.done _)
      · split
        · exact .later (.done _)
        · exact below_request hle'
    | bind p f =>
      rw [outcome_bind, outcome_bind]
      refine (ih p s hle').bind fun o => ?_
      cases o with
      | failure s e => exact .done _
      | success s b => exact .later (ih (f b) s hle')
    | alt p q =>
      rw [outcome_alt, outcome_alt]
      refine (ih p _ hle').bind fun o => ?_
      cases o with
      | failure s' e => exact .later (ih q _ hle')
      | success s' a => exact .later (.done _)
    | lookAhead p =>
      rw [outcome_lookAhead, outcome_lookAhead]
      refine (ih p _ hle').bind fun o => ?_
      cases o with
      | failure s' e => exact .later (.done _)
      | success s' a => exact .later (.done _)
    | label p name =>
      rw [outcome_label, outcome_label]
      refine (ih p s hle').bind fun o => ?_
      cases o with
      | failure s' e => exact .later (.done _)
      | success s' a => exact .done _
    | loop start body =>
      rw [outcome_loop, outcome_loop]
      refine (ih (body start) s hle').bind fun o => ?_
      cases o with
      | failure s' e => exact .done _
      | success s' turn =>
        cases turn with
        | inl next => exact .later (ih (.loop next body) s' hle')
        | inr a => exact .later (.done _)
    | rule i => exact .later (ih (G i) s hle')
    | total p => exact ih p s hle'

end Parser

end Piecemeal
