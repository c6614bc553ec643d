import Piecemeal.Parse

/-!
# Outcomes as runs of their own

`Parser.exec` is handed what to do after a failure and after a success. Here it is split in two:
`Parser.outcome` runs the parser alone and ends with its outcome as data, and whatever was to follow
is bound to that outcome (`exec_eq_bind`); a parse is the outcome turned into a verdict
(`start_eq`). So the behaviour of a combined parser is an equation between the outcomes of its parts
(`outcome_bind`, `outcome_alt`, …), and nothing below this module mentions a continuation.
-/

namespace Piecemeal

variable {ι : Type} {Γ : ι → Type} {τ α β ρ σ : Type}

namespace Outcome

def input : Outcome τ α → Input τ
  | failure s _ | success s _ => s

/-- Goes on one way from a failure and another from a success. -/
def route (ko : Input τ → Failure → Run τ ρ) (ok : Input τ → α → Run τ ρ) :
    Outcome τ α → Run τ ρ
  | failure s reason => ko s reason
  | success s a => ok s a

def verdict : Outcome τ α → Verdict τ α
  | failure s reason => .rejected reason s.remaining
  | success s a => .accepted a s.remaining

end Outcome

theorem bind_request (s : Input τ) (onEnd onChunk : Input τ → Run τ ρ) (f : ρ → Run τ σ)
    (budget : Nat) :
    (request s onEnd onChunk budget).bind f =
      request s (fun s => (onEnd s).bind f) (fun s => (onChunk s).bind f) budget := by
  induction budget with
  | zero => rfl
  | succ budget ih =>
    simp only [request, Run.bind]
    congr 1
    funext chunk
    split
    · simp only [Run.bind, ih]
    · rfl

namespace Parser

/-- Binding after a run is binding after each of its continuations: `exec` hands an answer on
unchanged. -/
theorem bind_exec (G : Rules Γ τ) (budget : Nat) (p : Parser Γ τ α) (s : Input τ)
    (ko : Input τ → Failure → Run τ ρ) (ok : Input τ → α → Run τ ρ) (f : ρ → Run τ σ) :
    (p.exec G budget s ko ok).bind f =
      p.exec G budget s (fun s e => (ko s e).bind f) (fun s a => (ok s a).bind f) := by
  induction budget generalizing α s ko with
  | zero => rfl
  | succ budget ih =>
    cases p with
    | demandInput =>
      simp only [exec]
      split
      · rfl
      · rw [bind_request]
    | wantInput =>
      simp only [exec]
      split
      · rfl
      · split
        · rfl
        · rw [bind_request]
    | loop start body =>
      simp only [exec, ih]
      congr 1
      funext s turn
      cases turn with
      | inl next => simp only [Run.bind, ih]
      | inr a => rfl
    | _ => simp only [exec, ih, Run.bind]

theorem exec_eq_bind (G : Rules Γ τ) (budget : Nat) (p : Parser Γ τ α) (s : Input τ)
    (ko : Input τ → Failure → Run τ ρ) (ok : Input τ → α → Run τ ρ) :
    p.exec G budget s ko ok = (p.outcome G budget s).bind (Outcome.route ko ok) := by
  rw [outcome, bind_exec]
  rfl

theorem start_eq (G : Rules Γ τ) (budget : Nat) (p : Parser Γ τ α) (s : Input τ) :
    p.start G budget s =
      .later fun _ => (p.outcome G budget s).bind fun o => .done o.verdict := by
  rw [start, exec_eq_bind]
  congr 1
  funext _
  congr 1
  funext o
  cases o <;> rfl

/-! ## The outcome of each expression -/

section Equations

variable (G : Rules Γ τ) (budget : Nat) (s : Input τ)

theorem outcome_get :
    (get : Parser Γ τ _).outcome G (budget + 1) s =
      .later fun _ => .done (.success s s.remaining) := rfl

theorem outcome_put (tokens : Buffer τ) :
    (put tokens : Parser Γ τ _).outcome G (budget + 1) s =
      .later fun _ => .done (.success { s with remaining := tokens } ()) := rfl

theorem outcome_demandInput :
    (demandInput : Parser Γ τ _).outcome G (budget + 1) s =
      if s.closed then .later fun _ => .done (.failure s .notEnoughInput)
      else request s (fun s => .done (.failure s .notEnoughInput))
        (fun s => .done (.success s ())) budget := rfl

theorem outcome_wantInput :
    (wantInput : Parser Γ τ _).outcome G (budget + 1) s =
      if !s.remaining.isEmpty then .later fun _ => .done (.success s true)
      else if s.closed then .later fun _ => .done (.success s false)
      else request s (fun s => .done (.success s false)) (fun s => .done (.success s true))
        budget := rfl

theorem outcome_bind (p : Parser Γ τ β) (f : β → Parser Γ τ α) :
    (p.bind f).outcome G (budget + 1) s = (p.outcome G budget s).bind
      (Outcome.route (fun s e => .done (.failure s e))
        fun s a => .later fun _ => (f a).outcome G budget s) := by
  rw [outcome, exec, exec_eq_bind]
  rfl

theorem outcome_alt (p q : Parser Γ τ α) :
    (p.alt q).outcome G (budget + 1) s = (p.outcome G budget s.checkpoint).bind
      (Outcome.route (fun after _ => .later fun _ => q.outcome G budget (s.rewind after))
        fun after a => .later fun _ => .done (.success (s.keep after) a)) := by
  rw [outcome, exec, exec_eq_bind]
  rfl

theorem outcome_lookAhead (p : Parser Γ τ α) :
    (lookAhead p).outcome G (budget + 1) s = (p.outcome G budget s.checkpoint).bind
      (Outcome.route (fun after e => .later fun _ => .done (.failure (s.rewind after) e))
        fun after a => .later fun _ => .done (.success (s.rewind after) a)) := by
  rw [outcome, exec, exec_eq_bind]

theorem outcome_label (p : Parser Γ τ α) (name : String) :
    (p.label name).outcome G (budget + 1) s = (p.outcome G budget s).bind
      (Outcome.route (fun s e => .later fun _ => .done (.failure s (e.within name)))
        fun s a => .done (.success s a)) := by
  rw [outcome, exec, exec_eq_bind]

theorem outcome_loop (start : β) (body : β → Parser Γ τ (β ⊕ α)) :
    (loop start body).outcome G (budget + 1) s = ((body start).outcome G budget s).bind
      (Outcome.route (fun s e => .done (.failure s e))
        fun s turn => match turn with
          | .inl next => .later fun _ => (loop next body).outcome G budget s
          | .inr a => .later fun _ => .done (.success s a)) := by
  rw [outcome, exec, exec_eq_bind]
  rfl

end Equations

end Parser

end Piecemeal
