import Piecemeal.Proofs.LeastReading
import Piecemeal.Proofs.Termination

/-!
# Outcomes however the stream is delivered

Where a parser stops along the chunks to come (`Parser.Halts`) is all there is to know about it: a
prompt that has the chunks makes it stop there, and so do a prompt and a caller between whom the
chunks and the end are shared out in any way. `Parser.Takes` says both of an outcome, together with
how much of the stream was asked for, and `exists_takes_of_halts` gets it from one stop.
-/

namespace Piecemeal

variable {ι : Type} {Γ : ι → Type} {τ α ρ : Type}

namespace Run

theorem suffix_of_along {ends : Bool} {r : Run τ ρ} {chunks left : List (List τ)} {a : ρ}
    (h : r.along ends chunks = some (.done a left)) : left <:+ chunks := by
  induction r generalizing chunks with
  | done a' =>
    cases h
    exact List.suffix_rfl
  | later next ih => exact ih () h
  | await input onEnd onChunk ihEnd ihChunk =>
    cases chunks with
    | cons chunk rest => exact (ihChunk chunk h).trans (List.suffix_cons chunk rest)
    | nil =>
      cases ends with
      | true => exact ihEnd () h
      | false => cases h
  | exhausted => cases h

/-- However the chunks and the end are shared between prompt and caller, a run that is over once it
is told of the end comes to the answer at which it stops along the chunks. -/
theorem stage_passage_of_along {r : Run τ ρ}
    (hquiet : ∀ replies input onEnd onChunk, r.Reaches replies (.await input onEnd onChunk) →
      (onEnd ()).Quiet)
    {chunks left : List (List τ)} {a : ρ} (h : r.along true chunks = some (.done a left))
    {plan : List (Planned τ)} (hplan : plan.map Planned.event = chunks.map .chunk ++ [.ended])
    (asked : Nat) :
    (r.passage ⟨plan.map Planned.reply, .handBack, asked⟩ (Planned.supplied plan)).stage =
      .done a := by
  induction r generalizing plan chunks asked with
  | done a' =>
    cases h
    rw [passage, settleWith, Stage.resumed_done]
  | exhausted => cases h
  | later next ih =>
    refine ih () ?_ h hplan asked
    intro replies input onEnd onChunk hr
    exact hquiet _ _ _ _ (.later hr)
  | await input onEnd onChunk ihEnd ihChunk =>
    cases plan with
    | nil => simp at hplan
    | cons delivery plan =>
      obtain ⟨event, onTheSpot⟩ := delivery
      cases chunks with
      | nil =>
        obtain ⟨hevent, -⟩ := List.cons.inj hplan
        simp only at hevent
        subst hevent
        have hended : (onEnd ()).Quiet := hquiet _ _ _ _ (.here _)
        have hend : (onEnd ()).along true [] = some (.done a left) := h
        rw [along_nil] at hend
        obtain ⟨a', hfinish, ha'⟩ := Option.map_eq_some_iff.mp hend
        cases ha'
        have hover : ∀ prompt events,
            ((onEnd ()).passage prompt events).stage = .done a := by
          intro prompt events
          rw [passage, hended.settleWith, hfinish, Stage.ofAnswer, Stage.resumed_done]
        cases onTheSpot with
        | true => exact hover _ _
        | false => exact hover _ _
      | cons chunk rest =>
        obtain ⟨hevent, hlater⟩ := List.cons.inj hplan
        simp only at hevent
        subst hevent
        have hnext := ihChunk chunk
          (fun replies input onEnd onChunk hr => hquiet _ _ _ _ (.chunk chunk hr)) h hlater
          (asked + 1)
        cases onTheSpot with
        | true => exact hnext
        | false => exact hnext

end Run

namespace Parser

open Input

/-- Started in `s`, the parser is over with `o`, once `k` of the chunks have been asked for, and the
end too if `ended`. It is the same whether a prompt has the chunks and then reports the end, or
prompt and caller take turns at delivering these events. -/
structure Takes (G : Rules Γ τ) (p : Parser Γ τ α) (s : Input τ) (chunks : List (List τ)) (k : Nat)
    (ended : Bool) (o : Outcome τ α) : Prop where
  pulls : p.Pulls G s chunks k ended o
  planned : ∃ least, ∀ budget, least ≤ budget → ∀ plan : List (Planned τ),
    plan.map Planned.event = chunks.map .chunk ++ [.ended] →
      ((p.outcome G budget s).passage (Planned.prompt plan) (Planned.supplied plan)).stage =
        .done o

section Takes

variable {G : Rules Γ τ} {p : Parser Γ τ α} {s : Input τ} {chunks left : List (List τ)}
  {o : Outcome τ α}

theorem takes_of_halts {k : Nat} (hk : k ≤ chunks.length)
    (h : p.Halts true G s chunks (.done o (chunks.drop k))) :
    p.Takes G s chunks k (o.input.closed && !s.closed) o := by
  obtain ⟨least, hrun⟩ := h
  refine ⟨⟨least, fun budget hle => ?_⟩, least, fun budget hle plan hplan => ?_⟩
  · obtain ⟨asked, hasked, hsettled⟩ := exists_settleWith_done (hrun budget hle)
    rw [List.length_drop] at hasked
    obtain rfl : asked = k + (o.input.closed && !s.closed).toNat := by omega
    exact hsettled
  · exact Run.stage_passage_of_along (fun _ _ _ _ => quiet_onEnd) (hrun budget hle) hplan 0

/-- A stop along the chunks that may still come is an outcome of every delivery. -/
theorem exists_takes_of_halts (h : p.Halts true G s (s.future chunks) (.done o left)) :
    ∃ k, k ≤ (s.future chunks).length ∧ left = (s.future chunks).drop k ∧
      p.Takes G s chunks k (o.input.closed && !s.closed) o := by
  cases hs : s.closed with
  | true =>
    rw [future_of_closed hs] at h ⊢
    obtain ⟨rfl, hunasked⟩ := halts_of_closed hs h chunks
    exact ⟨0, Nat.le_refl 0, rfl, hs ▸ takes_of_halts (Nat.zero_le _) hunasked⟩
  | false =>
    rw [future_of_open hs] at h ⊢
    obtain ⟨least, hrun⟩ := id h
    have hleft := List.suffix_iff_eq_drop.mp (Run.suffix_of_along (hrun least (Nat.le_refl least)))
    rw [hleft] at h
    exact ⟨_, Nat.sub_le _ _, hleft, hs ▸ takes_of_halts (Nat.sub_le _ _) h⟩

end Takes

end Parser

end Piecemeal
