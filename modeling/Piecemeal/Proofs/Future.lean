import Piecemeal.Proofs.Budget
import Piecemeal.Proofs.Record

/-!
# A run and the chunks to come

What a run does depends on what will be delivered. `Run.along ends r chunks` answers `r` by `chunks`
in order and then, if the stream `ends` there, by its end: the run stops with an answer and the
chunks it did not ask for, or it waits for more than there is. `Comes ends r chunks halt` says that
a family of runs stops at `halt` as soon as its budget is large enough, and there is one rule for
each way to build a parser (`halts_bind`, `halts_loop`, …).

The tokens that a parser may still see are those remaining and those to come, `Input.ahead`. Chunks
only move from the one to the other (`rewind_of_halts`), and what a stop shows of itself,
`Halt.showing`, does not say on which side they are.
-/

namespace Piecemeal

variable {ι : Type} {Γ : ι → Type} {τ α β ρ σ : Type}

/-- Where a run stops on given chunks. -/
inductive Halt (τ ρ : Type)
  /-- It is over, and has not asked for the chunks `left`. -/
  | done (answer : ρ) (left : List (List τ))
  /-- It asks for more than there is. -/
  | waiting (input : Input τ)

namespace Run

/-- Answers a run by chunks and then, if the stream `ends` there, by its end. -/
def along (ends : Bool) : Run τ ρ → List (List τ) → Option (Halt τ ρ)
  | .done a, chunks => some (.done a chunks)
  | .later next, chunks => (next ()).along ends chunks
  | .await _ _ onChunk, chunk :: left => (onChunk chunk).along ends left
  | .await input onEnd _, [] => if ends then (onEnd ()).along ends [] else some (.waiting input)
  | .exhausted, _ => none

end Run

/-- Goes on from a stop that has an answer. -/
def Halt.andThen (ends : Bool) (f : ρ → Run τ σ) : Halt τ ρ → Option (Halt τ σ)
  | done a left => (f a).along ends left
  | waiting input => some (waiting input)

namespace Run

variable {ends : Bool}

theorem along_bind (r : Run τ ρ) (f : ρ → Run τ σ) (chunks : List (List τ)) :
    (r.bind f).along ends chunks = (r.along ends chunks).bind (Halt.andThen ends f) := by
  induction r generalizing chunks with
  | done a => rfl
  | later next ih => exact ih () chunks
  | await input onEnd onChunk ihEnd ihChunk =>
    cases chunks with
    | cons chunk left => exact ihChunk chunk left
    | nil =>
      cases ends with
      | true => exact ihEnd () []
      | false => rfl
  | exhausted => rfl

theorem Below.along {r r' : Run τ ρ} (h : r.Below r') {chunks : List (List τ)} {halt : Halt τ ρ}
    (hr : r.along ends chunks = some halt) : r'.along ends chunks = some halt := by
  induction h generalizing chunks with
  | exhausted r => cases hr
  | done a => exact hr
  | later _ ih => exact ih hr
  | await _ _ ihEnd ihChunk =>
    cases chunks with
    | cons chunk left => exact ihChunk chunk hr
    | nil =>
      cases ends with
      | true => exact ihEnd hr
      | false => exact hr

/-- A run that stops with an answer has come to it on a path: the chunks it was given are those on
the path and those left, and the end was reported only after all of them. -/
theorem reaches_of_along {r : Run τ ρ} {chunks left : List (List τ)} {a : ρ}
    (h : r.along ends chunks = some (.done a left)) :
    ∃ replies, r.Reaches replies (.done a) ∧ delivered replies ++ left.flatten = chunks.flatten ∧
      (endReported replies = true → ends = true ∧ left = []) ∧ (chunks = [] → left = []) := by
  induction r generalizing chunks with
  | done a' =>
    cases h
    exact ⟨[], .here _, rfl, nofun, id⟩
  | later next ih =>
    obtain ⟨replies, hpath, hrest⟩ := ih () h
    exact ⟨replies, .later hpath, hrest⟩
  | await input onEnd onChunk ihEnd ihChunk =>
    cases chunks with
    | cons chunk rest =>
      obtain ⟨replies, hpath, htokens, hend, -⟩ := ihChunk chunk h
      refine ⟨.chunk chunk :: replies, .chunk chunk hpath, ?_, hend, nofun⟩
      rw [delivered_cons, List.append_assoc, htokens]
      rfl
    | nil =>
      cases ends with
      | true =>
        obtain ⟨replies, hpath, htokens, hend, hnil⟩ := ihEnd () h
        exact ⟨.ended :: replies, .ended hpath, htokens, fun _ => ⟨rfl, hnil rfl⟩, hnil⟩
      | false => cases h
  | exhausted => cases h

end Run

/-! ## Large enough budgets -/

/-- With every large enough budget the run stops at `halt`. -/
def Comes (ends : Bool) (r : Nat → Run τ ρ) (chunks : List (List τ)) (halt : Halt τ ρ) : Prop :=
  ∃ least, ∀ budget, least ≤ budget → (r budget).along ends chunks = some halt

section Comes

variable {ends : Bool} {r : Nat → Run τ ρ} {chunks left : List (List τ)}

theorem Comes.functional {halt halt' : Halt τ ρ} (h : Comes ends r chunks halt)
    (h' : Comes ends r chunks halt') : halt = halt' := by
  obtain ⟨least, h⟩ := h
  obtain ⟨least', h'⟩ := h'
  have heq := (h (max least least') (by omega)).symm.trans (h' (max least least') (by omega))
  exact Option.some.inj heq

theorem comes_of_forall {halt : Halt τ ρ} (h : ∀ n, (r n).along ends chunks = some halt) :
    Comes ends r chunks halt :=
  ⟨0, fun n _ => h n⟩

theorem comes_succ {halt : Halt τ ρ} (h : Comes ends (fun budget => r (budget + 1)) chunks halt) :
    Comes ends r chunks halt := by
  obtain ⟨least, h⟩ := h
  refine ⟨least + 1, fun budget hle => ?_⟩
  obtain ⟨budget, rfl⟩ : ∃ n, budget = n + 1 := ⟨budget - 1, by omega⟩
  exact h budget (by omega)

theorem Comes.bind {f : Nat → ρ → Run τ σ} {a : ρ} {halt : Halt τ σ}
    (hr : Comes ends r chunks (.done a left)) (hf : Comes ends (fun n => f n a) left halt) :
    Comes ends (fun n => (r n).bind (f n)) chunks halt := by
  obtain ⟨least, hr⟩ := hr
  obtain ⟨least', hf⟩ := hf
  refine ⟨max least least', fun budget hle => ?_⟩
  rw [Run.along_bind, hr budget (by omega)]
  exact hf budget (by omega)

theorem Comes.bind_waiting {f : Nat → ρ → Run τ σ} {input : Input τ}
    (hr : Comes ends r chunks (.waiting input)) :
    Comes ends (fun n => (r n).bind (f n)) chunks (.waiting input) := by
  obtain ⟨least, hr⟩ := hr
  refine ⟨least, fun budget hle => ?_⟩
  rw [Run.along_bind, hr budget hle]
  rfl

end Comes

/-! ## What is ahead -/

namespace Input

/-- The tokens that may still be seen: those remaining and those to come. -/
def ahead (s : Input τ) (chunks : List (List τ)) : List τ := s.remaining.toList ++ chunks.flatten

/-- Nothing is to come where the end has been reported. -/
def Sound (ends : Bool) (s : Input τ) (chunks : List (List τ)) : Prop :=
  s.closed = true → ends = true ∧ chunks = []

end Input

/-- What can be seen of a stop without knowing how the stream was cut. -/
inductive Showing (τ α : Type)
  | accepted (value : α) (rest : List τ)
  | rejected (failure : Failure) (rest : List τ)
  | waiting (remaining : List τ) (closed : Bool)

def Showing.map (f : α → β) : Showing τ α → Showing τ β
  | accepted a rest => accepted (f a) rest
  | rejected e rest => rejected e rest
  | waiting remaining closed => waiting remaining closed

def Halt.showing : Halt τ (Outcome τ α) → Showing τ α
  | done (.success s a) left => .accepted a (s.ahead left)
  | done (.failure s e) left => .rejected e (s.ahead left)
  | waiting s => .waiting s.remaining.toList s.closed

namespace Parser

/-- With every large enough budget the parser, started in `s`, stops at `halt`. -/
abbrev Halts (ends : Bool) (G : Rules Γ τ) (p : Parser Γ τ α) (s : Input τ)
    (chunks : List (List τ)) (halt : Halt τ (Outcome τ α)) : Prop :=
  Comes ends (fun budget => p.outcome G budget s) chunks halt

section Rules

variable {ends : Bool} {G : Rules Γ τ} {s s' : Input τ} {chunks left : List (List τ)}

theorem halts_of_along {p : Parser Γ τ α} {budget : Nat} {halt : Halt τ (Outcome τ α)}
    (h : (p.outcome G budget s).along ends chunks = some halt) : p.Halts ends G s chunks halt :=
  ⟨budget, fun _ hle => (p.below_outcome G s hle).along h⟩

/-- The end is known only where no chunk is left. -/
theorem sound_of_halts {p : Parser Γ τ α} {o : Outcome τ α} (hs : s.Sound ends chunks)
    (h : p.Halts ends G s chunks (.done o left)) : o.input.Sound ends left := by
  obtain ⟨budget, h⟩ := h
  obtain ⟨replies, hpath, -, hend, hnil⟩ := Run.reaches_of_along (h budget (Nat.le_refl _))
  intro hclosed
  have hor : (s.closed || endReported replies) = true :=
    (recorded_of_reaches hpath).closed.symm.trans hclosed
  rcases Bool.or_eq_true_iff.mp hor with hc | hr
  · exact ⟨(hs hc).1, hnil (hs hc).2⟩
  · exact hend hr

/-- Going back from a checkpoint, whatever was consumed is ahead again. -/
theorem rewind_of_halts {p : Parser Γ τ α} {o : Outcome τ α} (hs : s.Sound ends chunks)
    (h : p.Halts ends G s.checkpoint chunks (.done o left)) :
    (s.rewind o.input).Sound ends left ∧ (s.rewind o.input).ahead left = s.ahead chunks := by
  have hsound : o.input.Sound ends left := sound_of_halts (s := s.checkpoint) hs h
  obtain ⟨budget, h⟩ := h
  obtain ⟨replies, hpath, htokens, -, -⟩ := Run.reaches_of_along (h budget (Nat.le_refl _))
  have hrecord := recorded_of_reaches hpath
  constructor
  · intro hclosed
    refine hsound ?_
    rw [hrecord.rewind_eq_after] at hclosed
    exact hrecord.closed.trans hclosed
  · rw [hrecord.rewind_eq_after]
    simp only [Input.ahead, Input.after, Buffer.toList_append, Buffer.toList_ofList,
      List.append_assoc, htokens]

/-! ## One rule for each way to build a parser -/

theorem halts_pure (a : α) : (pure a).Halts ends G s chunks (.done (.success s a) chunks) :=
  comes_succ (comes_of_forall fun _ => rfl)

theorem halts_fail (message : String) :
    (fail message : Parser Γ τ α).Halts ends G s chunks
      (.done (.failure s ⟨[], message⟩) chunks) :=
  comes_succ (comes_of_forall fun _ => rfl)

theorem halts_get : get.Halts ends G s chunks (.done (.success s s.remaining) chunks) :=
  comes_succ (comes_of_forall fun _ => rfl)

theorem halts_put (tokens : Buffer τ) :
    (put tokens).Halts ends G s chunks
      (.done (.success { s with remaining := tokens } ()) chunks) :=
  comes_succ (comes_of_forall fun _ => rfl)

theorem halts_bind {p : Parser Γ τ β} {f : β → Parser Γ τ α} {b : β}
    {halt : Halt τ (Outcome τ α)} (hp : p.Halts ends G s chunks (.done (.success s' b) left))
    (hf : (f b).Halts ends G s' left halt) : (p.bind f).Halts ends G s chunks halt := by
  refine comes_succ ?_
  simp only [outcome_bind]
  exact hp.bind hf

theorem halts_bind_failure {p : Parser Γ τ β} (f : β → Parser Γ τ α) {e : Failure}
    (hp : p.Halts ends G s chunks (.done (.failure s' e) left)) :
    (p.bind f).Halts ends G s chunks (.done (.failure s' e) left) := by
  refine comes_succ ?_
  simp only [outcome_bind]
  exact hp.bind (comes_of_forall fun _ => rfl)

theorem halts_bind_waiting {p : Parser Γ τ β} (f : β → Parser Γ τ α)
    (hp : p.Halts ends G s chunks (.waiting s')) :
    (p.bind f).Halts ends G s chunks (.waiting s') := by
  refine comes_succ ?_
  simp only [outcome_bind]
  exact hp.bind_waiting

theorem halts_alt {p q : Parser Γ τ α} {a : α}
    (hp : p.Halts ends G s.checkpoint chunks (.done (.success s' a) left)) :
    (p.alt q).Halts ends G s chunks (.done (.success (s.keep s') a) left) := by
  refine comes_succ ?_
  simp only [outcome_alt]
  exact hp.bind (comes_of_forall fun _ => rfl)

theorem halts_alt_failure {p q : Parser Γ τ α} {e : Failure} {halt : Halt τ (Outcome τ α)}
    (hp : p.Halts ends G s.checkpoint chunks (.done (.failure s' e) left))
    (hq : q.Halts ends G (s.rewind s') left halt) : (p.alt q).Halts ends G s chunks halt := by
  refine comes_succ ?_
  simp only [outcome_alt]
  exact hp.bind hq

theorem halts_alt_waiting {p q : Parser Γ τ α}
    (hp : p.Halts ends G s.checkpoint chunks (.waiting s')) :
    (p.alt q).Halts ends G s chunks (.waiting s') := by
  refine comes_succ ?_
  simp only [outcome_alt]
  exact hp.bind_waiting

theorem halts_lookAhead {p : Parser Γ τ α} {a : α}
    (hp : p.Halts ends G s.checkpoint chunks (.done (.success s' a) left)) :
    p.lookAhead.Halts ends G s chunks (.done (.success (s.rewind s') a) left) := by
  refine comes_succ ?_
  simp only [outcome_lookAhead]
  exact hp.bind (comes_of_forall fun _ => rfl)

theorem halts_lookAhead_failure {p : Parser Γ τ α} {e : Failure}
    (hp : p.Halts ends G s.checkpoint chunks (.done (.failure s' e) left)) :
    p.lookAhead.Halts ends G s chunks (.done (.failure (s.rewind s') e) left) := by
  refine comes_succ ?_
  simp only [outcome_lookAhead]
  exact hp.bind (comes_of_forall fun _ => rfl)

theorem halts_label {p : Parser Γ τ α} (name : String) {a : α}
    (hp : p.Halts ends G s chunks (.done (.success s' a) left)) :
    (p.label name).Halts ends G s chunks (.done (.success s' a) left) := by
  refine comes_succ ?_
  simp only [outcome_label]
  exact hp.bind (comes_of_forall fun _ => rfl)

theorem halts_label_failure {p : Parser Γ τ α} (name : String) {e : Failure}
    (hp : p.Halts ends G s chunks (.done (.failure s' e) left)) :
    (p.label name).Halts ends G s chunks (.done (.failure s' (e.within name)) left) := by
  refine comes_succ ?_
  simp only [outcome_label]
  exact hp.bind (comes_of_forall fun _ => rfl)

theorem halts_loop {body : σ → Parser Γ τ (σ ⊕ α)} {start next : σ} {halt : Halt τ (Outcome τ α)}
    (hbody : (body start).Halts ends G s chunks (.done (.success s' (.inl next)) left))
    (hloop : (loop next body).Halts ends G s' left halt) :
    (loop start body).Halts ends G s chunks halt := by
  refine comes_succ ?_
  simp only [outcome_loop]
  exact hbody.bind hloop

theorem halts_loop_done {body : σ → Parser Γ τ (σ ⊕ α)} {start : σ} {a : α}
    (hbody : (body start).Halts ends G s chunks (.done (.success s' (.inr a)) left)) :
    (loop start body).Halts ends G s chunks (.done (.success s' a) left) := by
  refine comes_succ ?_
  simp only [outcome_loop]
  exact hbody.bind (comes_of_forall fun _ => rfl)

theorem halts_loop_failure {body : σ → Parser Γ τ (σ ⊕ α)} {start : σ} {e : Failure}
    (hbody : (body start).Halts ends G s chunks (.done (.failure s' e) left)) :
    (loop start body).Halts ends G s chunks (.done (.failure s' e) left) := by
  refine comes_succ ?_
  simp only [outcome_loop]
  exact hbody.bind (comes_of_forall fun _ => rfl)

theorem halts_loop_waiting {body : σ → Parser Γ τ (σ ⊕ α)} {start : σ}
    (hbody : (body start).Halts ends G s chunks (.waiting s')) :
    (loop start body).Halts ends G s chunks (.waiting s') := by
  refine comes_succ ?_
  simp only [outcome_loop]
  exact hbody.bind_waiting

theorem halts_total {p : Parser Γ τ α} {halt : Halt τ (Outcome τ α)}
    (hp : p.Halts ends G s chunks halt) : p.total.Halts ends G s chunks halt :=
  comes_succ hp

end Rules

end Parser

end Piecemeal
